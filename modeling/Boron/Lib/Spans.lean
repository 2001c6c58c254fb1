import Boron.Lib.Tiling

/-! # Lists of spans

A list of half-open spans `[lo m, hi m)` in order, each with an attribute at each of its points. Such
a list is known by what it shows at each point. Carving a range out of it leaves what it shows outside
the range and nothing inside; the rules below carve list by list, and put the tiling of an interval
together again from what its parts show. -/

namespace Boron

open List

variable {α β κ : Type*} [LinearOrder κ]

/-- No span is empty, and each ends before the next begins. -/
structure Lined (lo hi : α → κ) (t : List α) : Prop where
  nonempty : ∀ m ∈ t, lo m < hi m
  sorted : t.Pairwise fun a b => hi a ≤ lo b

/-- The point lies in a span of the list. -/
def Covers (lo hi : α → κ) (t : List α) (a : κ) : Prop := ∃ m ∈ t, lo m ≤ a ∧ a < hi m

/-- The point lies in a span of the list with this attribute there. -/
def Shows (lo hi : α → κ) (attr : α → κ → β) (t : List α) (a : κ) (x : β) : Prop :=
  ∃ m ∈ t, (lo m ≤ a ∧ a < hi m) ∧ attr m a = x

/-- `t'` is `t` without the range `[s, e)`. -/
structure Carved (lo hi : α → κ) (attr : α → κ → β) (s e : κ) (t t' : List α) : Prop where
  lined : Lined lo hi t'
  inside : ∀ m' ∈ t', ∃ m ∈ t, lo m ≤ lo m' ∧ hi m' ≤ hi m
  shows : ∀ a x, Shows lo hi attr t' a x ↔ Shows lo hi attr t a x ∧ ¬ (s ≤ a ∧ a < e)

variable {lo hi : α → κ} {attr : α → κ → β} {s e a : κ} {x : β} {t t' u u' : List α} {m n : α}

theorem covers_iff_shows (attr : α → κ → β) : Covers lo hi t a ↔ ∃ x, Shows lo hi attr t a x :=
  ⟨fun ⟨m, hm, ha⟩ => ⟨attr m a, m, hm, ha, rfl⟩, fun ⟨_, m, hm, ha, _⟩ => ⟨m, hm, ha⟩⟩

@[simp] theorem covers_nil : ¬ Covers lo hi [] a := by simp [Covers]

@[simp] theorem covers_cons :
    Covers lo hi (m :: t) a ↔ (lo m ≤ a ∧ a < hi m) ∨ Covers lo hi t a := by
  simp [Covers]

@[simp] theorem covers_append :
    Covers lo hi (t ++ u) a ↔ Covers lo hi t a ∨ Covers lo hi u a := by
  simp [Covers, or_and_right, exists_or]

@[simp] theorem shows_nil : ¬ Shows lo hi attr [] a x := by simp [Shows]

@[simp] theorem shows_cons :
    Shows lo hi attr (m :: t) a x ↔ ((lo m ≤ a ∧ a < hi m) ∧ attr m a = x) ∨ Shows lo hi attr t a x := by
  simp [Shows]

@[simp] theorem shows_append :
    Shows lo hi attr (t ++ u) a x ↔ Shows lo hi attr t a x ∨ Shows lo hi attr u a x := by
  simp [Shows, or_and_right, exists_or]

/-- Spans without a common point lie one before the other. -/
theorem apart_of_no_common (hm : lo m < hi m) (hn : lo n < hi n)
    (h : ∀ a, lo m ≤ a → a < hi m → lo n ≤ a → a < hi n → False) : hi m ≤ lo n ∨ hi n ≤ lo m := by
  by_contra hno
  rw [not_or, not_le, not_le] at hno
  rcases le_total (lo m) (lo n) with hle | hle
  · exact h (lo n) hle hno.1 le_rfl hn
  · exact h (lo m) le_rfl hm hle hno.2

/-- A span of points outside a range that is not empty keeps clear of the range. -/
theorem clear_of_outside (hse : s < e) (hm : lo m < hi m)
    (h : ∀ a, lo m ≤ a → a < hi m → ¬ (s ≤ a ∧ a < e)) : hi m ≤ s ∨ e ≤ lo m := by
  by_contra hno
  rw [not_or, not_le, not_le] at hno
  rcases le_total s (lo m) with hle | hle
  · exact h (lo m) le_rfl hm ⟨hle, hno.2⟩
  · exact h s hle hno.1 ⟨le_rfl, hse⟩

namespace Lined

theorem nil : Lined lo hi [] := ⟨by simp, .nil⟩

theorem append_iff : Lined lo hi (t ++ u) ↔
    Lined lo hi t ∧ Lined lo hi u ∧ ∀ a ∈ t, ∀ b ∈ u, hi a ≤ lo b := by
  constructor
  · intro h
    obtain ⟨ht, hu, htu⟩ := pairwise_append.1 h.sorted
    exact ⟨⟨fun m hm => h.nonempty m (mem_append_left _ hm), ht⟩,
      ⟨fun m hm => h.nonempty m (mem_append_right _ hm), hu⟩, htu⟩
  · rintro ⟨ht, hu, htu⟩
    refine ⟨fun m hm => ?_, pairwise_append.2 ⟨ht.sorted, hu.sorted, htu⟩⟩
    rcases mem_append.1 hm with hm | hm
    · exact ht.nonempty m hm
    · exact hu.nonempty m hm

theorem cons_iff : Lined lo hi (m :: t) ↔ lo m < hi m ∧ Lined lo hi t ∧ ∀ b ∈ t, hi m ≤ lo b := by
  constructor
  · intro h
    obtain ⟨hm, ht⟩ := pairwise_cons.1 h.sorted
    exact ⟨h.nonempty m mem_cons_self, ⟨fun b hb => h.nonempty b (mem_cons_of_mem _ hb), ht⟩, hm⟩
  · rintro ⟨hpos, ht, hm⟩
    exact ⟨forall_mem_cons.2 ⟨hpos, ht.nonempty⟩, pairwise_cons.2 ⟨hm, ht.sorted⟩⟩

theorem singleton_iff : Lined lo hi [m] ↔ lo m < hi m := by
  simp [cons_iff, nil]

theorem starts (h : Lined lo hi t) : t.Pairwise fun a b => lo a < lo b :=
  h.sorted.imp_of_mem fun ha _ hb => (h.nonempty _ ha).trans_le hb

/-- Two spans of a list in order do not share a point. -/
theorem not_covers_tail (h : Lined lo hi (m :: t)) (hm : lo m ≤ a ∧ a < hi m) : ¬ Covers lo hi t a := by
  rintro ⟨n, hn, hna, _⟩
  exact absurd (hm.2.trans_le (((cons_iff.1 h).2.2 n hn).trans hna)) (lt_irrefl _)

end Lined

namespace Carved

theorem nil : Carved lo hi attr s e [] [] :=
  ⟨.nil, by simp, by simp⟩

theorem append (h : Lined lo hi (t ++ u)) (ht : Carved lo hi attr s e t t')
    (hu : Carved lo hi attr s e u u') : Carved lo hi attr s e (t ++ u) (t' ++ u') where
  lined := by
    refine Lined.append_iff.2 ⟨ht.lined, hu.lined, fun a ha b hb => ?_⟩
    obtain ⟨m, hm, _, hma⟩ := ht.inside a ha
    obtain ⟨n, hn, hnb, _⟩ := hu.inside b hb
    exact hma.trans (((Lined.append_iff.1 h).2.2 m hm n hn).trans hnb)
  inside := by
    intro m' hm'
    rcases mem_append.1 hm' with hm' | hm'
    · obtain ⟨m, hm, hb⟩ := ht.inside m' hm'
      exact ⟨m, mem_append_left _ hm, hb⟩
    · obtain ⟨m, hm, hb⟩ := hu.inside m' hm'
      exact ⟨m, mem_append_right _ hm, hb⟩
  shows a x := by
    rw [shows_append, shows_append, ht.shows, hu.shows]
    tauto

theorem cons (h : Lined lo hi (m :: u)) (ht : Carved lo hi attr s e [m] t')
    (hu : Carved lo hi attr s e u u') : Carved lo hi attr s e (m :: u) (t' ++ u') :=
  append (t := [m]) h ht hu

theorem of_clear (h : Lined lo hi t) (hcl : ∀ m ∈ t, hi m ≤ s ∨ e ≤ lo m) :
    Carved lo hi attr s e t t where
  lined := h
  inside m hm := ⟨m, hm, le_rfl, le_rfl⟩
  shows a x := by
    refine ⟨fun hx => ⟨hx, ?_⟩, And.left⟩
    obtain ⟨m, hm, ⟨hlo, hh⟩, _⟩ := hx
    rintro ⟨hs, he⟩
    rcases hcl m hm with hc | hc
    · exact absurd (hs.trans_lt (hh.trans_le hc)) (lt_irrefl _)
    · exact absurd (he.trans_le (hc.trans hlo)) (lt_irrefl _)

/-- A span inside the range goes. -/
theorem whole (hs : s ≤ lo m) (he : hi m ≤ e) : Carved lo hi attr s e [m] [] where
  lined := .nil
  inside := by simp
  shows a x := by
    simp only [shows_cons, shows_nil, or_false, false_iff]
    exact fun ⟨⟨hma, _⟩, hot⟩ => hot ⟨hs.trans hma.1, hma.2.trans_le he⟩

/-- Of a span that ends in the range the lower part stays. -/
theorem lower (hlo : lo n = lo m) (hh : hi n = s) (hs : lo m < s) (hsm : s ≤ hi m) (he : hi m ≤ e)
    (ha : ∀ a, a < s → attr n a = attr m a) : Carved lo hi attr s e [m] [n] where
  lined := Lined.singleton_iff.2 (by rwa [hlo, hh])
  inside m' hm' := by
    obtain rfl := mem_singleton.1 hm'
    exact ⟨m, mem_singleton_self m, hlo.ge, hh.trans_le hsm⟩
  shows a x := by
    simp only [shows_cons, shows_nil, or_false, hlo, hh]
    constructor
    · rintro ⟨⟨hma, has⟩, rfl⟩
      exact ⟨⟨⟨hma, has.trans_le hsm⟩, (ha a has).symm⟩, fun h => not_le.2 has h.1⟩
    · rintro ⟨⟨⟨hma, ham⟩, rfl⟩, hot⟩
      have has : a < s := not_le.1 fun h => hot ⟨h, ham.trans_le he⟩
      exact ⟨⟨hma, has⟩, ha a has⟩

/-- Of a span that begins in the range the upper part stays. -/
theorem upper (hlo : lo n = e) (hh : hi n = hi m) (hs : s ≤ lo m) (hme : lo m ≤ e) (he : e < hi m)
    (ha : ∀ a, e ≤ a → attr n a = attr m a) : Carved lo hi attr s e [m] [n] where
  lined := Lined.singleton_iff.2 (by rwa [hlo, hh])
  inside m' hm' := by
    obtain rfl := mem_singleton.1 hm'
    exact ⟨m, mem_singleton_self m, hme.trans_eq hlo.symm, hh.le⟩
  shows a x := by
    simp only [shows_cons, shows_nil, or_false, hlo, hh]
    constructor
    · rintro ⟨⟨hea, ham⟩, rfl⟩
      exact ⟨⟨⟨hme.trans hea, ham⟩, (ha a hea).symm⟩, fun h => not_le.2 h.2 hea⟩
    · rintro ⟨⟨⟨hma, ham⟩, rfl⟩, hot⟩
      have hea : e ≤ a := not_lt.1 fun h => hot ⟨hs.trans hma, h⟩
      exact ⟨⟨hea, ham⟩, ha a hea⟩

/-- A span around the range is split. -/
theorem both {n' : α} (hlo : lo n = lo m) (hh : hi n = s) (hlo' : lo n' = e) (hh' : hi n' = hi m)
    (hs : lo m < s) (hse : s ≤ e) (he : e < hi m) (ha : ∀ a, a < s → attr n a = attr m a)
    (ha' : ∀ a, e ≤ a → attr n' a = attr m a) : Carved lo hi attr s e [m] [n, n'] where
  lined := by
    refine Lined.cons_iff.2 ⟨by rwa [hlo, hh], Lined.singleton_iff.2 (by rwa [hlo', hh']), ?_⟩
    intro b hb
    rw [mem_singleton.1 hb, hh, hlo']
    exact hse
  inside m' hm' := by
    refine ⟨m, mem_singleton_self m, ?_⟩
    rcases mem_cons.1 hm' with rfl | hm'
    · exact ⟨hlo.ge, hh.trans_le (hse.trans he.le)⟩
    · obtain rfl := mem_singleton.1 hm'
      exact ⟨(hs.le.trans hse).trans_eq hlo'.symm, hh'.le⟩
  shows a x := by
    simp only [shows_cons, shows_nil, or_false, hlo, hh, hlo', hh']
    constructor
    · rintro (⟨⟨hma, has⟩, rfl⟩ | ⟨⟨hea, ham⟩, rfl⟩)
      · exact ⟨⟨⟨hma, has.trans (hse.trans_lt he)⟩, (ha a has).symm⟩, fun h => not_le.2 has h.1⟩
      · exact ⟨⟨⟨(hs.le.trans hse).trans hea, ham⟩, (ha' a hea).symm⟩, fun h => not_le.2 h.2 hea⟩
    · rintro ⟨⟨⟨hma, ham⟩, rfl⟩, hot⟩
      rcases lt_or_ge a s with has | hsa
      · exact .inl ⟨⟨hma, has⟩, ha a has⟩
      · have hea : e ≤ a := not_lt.1 fun h => hot ⟨hsa, h⟩
        exact .inr ⟨⟨hea, ham⟩, ha' a hea⟩

/-- What is left keeps clear of the range. -/
theorem clear (h : Carved lo hi attr s e t t') (hse : s < e) (hm : m ∈ t') : hi m ≤ s ∨ e ≤ lo m :=
  clear_of_outside hse (h.lined.nonempty m hm) fun a hlo hh =>
    ((h.shows a (attr m a)).1 ⟨m, hm, ⟨hlo, hh⟩, rfl⟩).2

theorem covers (h : Carved lo hi attr s e t t') :
    Covers lo hi t' a ↔ Covers lo hi t a ∧ ¬ (s ≤ a ∧ a < e) := by
  rw [covers_iff_shows attr, covers_iff_shows attr]
  simp only [h.shows, exists_and_right]

theorem shows_outside (h : Carved lo hi attr s e t t') (ha : ¬ (s ≤ a ∧ a < e)) :
    Shows lo hi attr t' a x ↔ Shows lo hi attr t a x := by
  rw [h.shows, and_iff_left ha]

end Carved

/-- Spans that are not empty and have no point in common tile what they cover. -/
theorem Tiles.of_covers {b : κ} {ns : List α} (hpos : ∀ n ∈ ns, lo n < hi n)
    (hon : ns.Pairwise fun m n => ∀ a, lo m ≤ a → a < hi m → lo n ≤ a → a < hi n → False)
    (hc : ∀ a, Covers lo hi ns a ↔ b ≤ a ∧ a < e) : Tiles lo hi b e ns where
  nonempty := hpos
  disjoint := hon.imp_of_mem fun hm hn h => apart_of_no_common (hpos _ hm) (hpos _ hn) h
  covers := hc

theorem Tiles.no_common {b : κ} {ns : List α} (h : Tiles lo hi b e ns) :
    ns.Pairwise fun m n => ∀ a, lo m ≤ a → a < hi m → lo n ≤ a → a < hi n → False :=
  h.disjoint.imp fun hmn a hm hm' hn hn' => by
    rcases hmn with hle | hle
    · exact absurd (hm'.trans_le (hle.trans hn)) (lt_irrefl _)
    · exact absurd (hn'.trans_le (hle.trans hm)) (lt_irrefl _)

end Boron
