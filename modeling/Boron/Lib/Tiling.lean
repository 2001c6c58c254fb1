import Mathlib.Data.List.Perm.Basic
import Mathlib.Order.Lattice

/-! # Tilings of an interval

Pieces are half-open intervals `[lo n, hi n)`. A list of pieces tiles `[b, e)` when no piece is
empty, no two overlap, and together they cover exactly `[b, e)`. Allocation and release never move
a point: they cut a piece in two or join two neighbours, and the rules below say that both keep the
tiling, wherever in the list the pieces stand. -/

namespace Boron

open List

variable {α κ : Type*} [LinearOrder κ] {lo hi : α → κ}

/-- `ns` tiles `[b, e)`. -/
structure Tiles (lo hi : α → κ) (b e : κ) (ns : List α) : Prop where
  nonempty : ∀ n ∈ ns, lo n < hi n
  disjoint : ns.Pairwise fun m n => hi m ≤ lo n ∨ hi n ≤ lo m
  covers : ∀ a, (∃ n ∈ ns, lo n ≤ a ∧ a < hi n) ↔ b ≤ a ∧ a < e

namespace Tiles

variable {b e : κ} {ns ms : List α} {l r n : α}

theorem perm (h : Tiles lo hi b e ns) (hp : ns.Perm ms) : Tiles lo hi b e ms where
  nonempty m hm := h.nonempty m (hp.mem_iff.2 hm)
  disjoint := (hp.pairwise_iff fun h => h.symm).1 h.disjoint
  covers a := by
    rw [← h.covers a]
    constructor
    · rintro ⟨n, hn, ha⟩
      exact ⟨n, hp.mem_iff.2 hn, ha⟩
    · rintro ⟨n, hn, ha⟩
      exact ⟨n, hp.mem_iff.1 hn, ha⟩

theorem single (h : lo n < hi n) : Tiles lo hi (lo n) (hi n) [n] where
  nonempty m hm := by
    obtain rfl := mem_singleton.1 hm
    exact h
  disjoint := pairwise_singleton _ _
  covers a := by simp

/-- Every piece lies inside the tiled interval. -/
theorem bounds (h : Tiles lo hi b e ns) (hn : n ∈ ns) : b ≤ lo n ∧ hi n ≤ e := by
  have hlt := h.nonempty n hn
  constructor
  · exact ((h.covers (lo n)).1 ⟨n, hn, le_rfl, hlt⟩).1
  · by_contra hlt'
    have he : e < hi n := not_le.1 hlt'
    have hlo : lo n < e := ((h.covers (lo n)).1 ⟨n, hn, le_rfl, hlt⟩).2
    exact lt_irrefl e ((h.covers e).1 ⟨n, hn, hlo.le, he⟩).2

private theorem mem_cut (hl : lo l = lo n) (hm : hi l = lo r) (hr : hi r = hi n)
    (hln : lo l < hi l) (hrn : lo r < hi r) (a : κ) :
    (lo n ≤ a ∧ a < hi n) ↔ (lo l ≤ a ∧ a < hi l) ∨ (lo r ≤ a ∧ a < hi r) := by
  rw [hl, hm] at *
  rw [hr] at *
  constructor
  · rintro ⟨h1, h2⟩
    rcases lt_or_ge a (lo r) with h | h
    · exact .inl ⟨h1, h⟩
    · exact .inr ⟨h, h2⟩
  · rintro (⟨h1, h2⟩ | ⟨h1, h2⟩)
    · exact ⟨h1, h2.trans hrn⟩
    · exact ⟨hln.le.trans h1, h2⟩

theorem cut (h : Tiles lo hi b e (n :: ns)) (hl : lo l = lo n) (hm : hi l = lo r)
    (hr : hi r = hi n) (hln : lo l < hi l) (hrn : lo r < hi r) :
    Tiles lo hi b e (l :: r :: ns) where
  nonempty m hm' := by
    rcases mem_cons.1 hm' with rfl | hm'
    · exact hln
    rcases mem_cons.1 hm' with rfl | hm'
    · exact hrn
    · exact h.nonempty m (mem_cons_of_mem _ hm')
  disjoint := by
    obtain ⟨hn, hns⟩ := pairwise_cons.1 h.disjoint
    refine pairwise_cons.2 ⟨?_, pairwise_cons.2 ⟨?_, hns⟩⟩
    · intro k hk
      rcases mem_cons.1 hk with rfl | hk
      · exact .inl hm.le
      · rcases hn k hk with h' | h'
        · exact .inl ((hm.trans_lt hrn).le.trans (hr.le.trans h'))
        · exact .inr (h'.trans hl.ge)
    · intro k hk
      rcases hn k hk with h' | h'
      · exact .inl (hr.le.trans h')
      · exact .inr (h'.trans (hl.ge.trans (hln.trans_eq hm).le))
  covers a := by
    rw [← h.covers a]
    simp only [exists_mem_cons_iff, mem_cut hl hm hr hln hrn a, or_assoc]

theorem join (h : Tiles lo hi b e (l :: r :: ns)) (hl : lo l = lo n) (hm : hi l = lo r)
    (hr : hi r = hi n) : Tiles lo hi b e (n :: ns) := by
  have hln : lo l < hi l := h.nonempty l (by simp)
  have hrn : lo r < hi r := h.nonempty r (by simp)
  obtain ⟨hl', hrs⟩ := pairwise_cons.1 h.disjoint
  obtain ⟨hr', hns⟩ := pairwise_cons.1 hrs
  refine ⟨?_, pairwise_cons.2 ⟨?_, hns⟩, ?_⟩
  · intro m hm'
    rcases mem_cons.1 hm' with rfl | hm'
    · rw [← hl, ← hr]
      exact hln.trans (hm.trans_lt hrn)
    · exact h.nonempty m (by simp [hm'])
  · intro k hk
    have hkn := h.nonempty k (by simp [hk])
    rw [← hl, ← hr]
    rcases hr' k hk with h1 | h1
    · exact .inl h1
    · rcases hl' k (mem_cons_of_mem _ hk) with h2 | h2
      · exact absurd (hkn.trans_le (h1.trans (hm.ge.trans h2))) (lt_irrefl _)
      · exact .inr h2
  · intro a
    rw [← h.covers a]
    simp only [exists_mem_cons_iff, mem_cut hl hm hr hln hrn a, or_assoc]

end Tiles

end Boron
