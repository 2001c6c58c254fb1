import Boron.Mm.Pool

/-! # The regions of the pool

The list of regions is read as two things: the regions in use, and the pages that are free. Reserving
a region takes its pages from the free ones, and freeing it gives them back; splitting and joining
entries shows in neither. `PoolSpace.Ok` ties the page tables to that view, and the two operations of
the pool are described in its terms. -/

namespace Boron.Mm

open List

namespace PoolEntry

/-- The page is one of the region. -/
def Covers (e : PoolEntry) (q : Nat) : Prop := e.page ≤ q ∧ q < e.page + e.size

instance (e : PoolEntry) (q : Nat) : Decidable (e.Covers q) :=
  inferInstanceAs (Decidable (_ ∧ _))

end PoolEntry

/-! ## Lists of regions -/

/-- A region in use. -/
def Used (l : List PoolEntry) (e : PoolEntry) : Prop := e ∈ l ∧ e.allocated = true

/-- A page of a free region. -/
def FreePage (l : List PoolEntry) (q : Nat) : Prop := ∃ e ∈ l, e.allocated = false ∧ e.Covers q

/-- Regions are not empty, and follow each other. -/
structure InOrder (l : List PoolEntry) : Prop where
  apart : l.Pairwise fun e f => e.page + e.size ≤ f.page
  pos : ∀ e ∈ l, 0 < e.size

/-- The page belongs to a region, in use or free. -/
def Covered (l : List PoolEntry) (q : Nat) : Prop := ∃ e ∈ l, e.Covers q

/-- After a free region comes no free page. -/
def Maximal (l : List PoolEntry) : Prop :=
  ∀ e ∈ l, e.allocated = false → ¬ FreePage l (e.page + e.size)

/-- The addresses of the list entries. -/
def handles (l : List PoolEntry) : List Nat := l.map PoolEntry.handle

variable {p : Port} {l l' r r' : List PoolEntry} {e f x : PoolEntry} {q n tag userData handle : Nat}
  {hd hd' : PoolHeaders} {created : Option (PoolHeaders × Nat)}

theorem covered_iff : Covered l q ↔ (∃ e, Used l e ∧ e.Covers q) ∨ FreePage l q := by
  constructor
  · rintro ⟨e, he, hq⟩
    cases ha : e.allocated with
    | true => exact .inl ⟨e, ⟨he, ha⟩, hq⟩
    | false => exact .inr ⟨e, he, ha, hq⟩
  · rintro (⟨e, he, hq⟩ | ⟨e, he, -, hq⟩)
    · exact ⟨e, he.1, hq⟩
    · exact ⟨e, he, hq⟩

theorem used_cons : Used (e :: r) f ↔ (f = e ∧ e.allocated = true) ∨ Used r f := by
  constructor
  · rintro ⟨hme, ha⟩
    rcases mem_cons.1 hme with rfl | hme
    · exact .inl ⟨rfl, ha⟩
    · exact .inr ⟨hme, ha⟩
  · rintro (⟨rfl, ha⟩ | ⟨hme, ha⟩)
    · exact ⟨by simp, ha⟩
    · exact ⟨by simp [hme], ha⟩

theorem freePage_cons : FreePage (e :: r) q ↔ (e.allocated = false ∧ e.Covers q) ∨ FreePage r q := by
  constructor
  · rintro ⟨f, hme, hfr⟩
    rcases mem_cons.1 hme with rfl | hme
    · exact .inl hfr
    · exact .inr ⟨f, hme, hfr⟩
  · rintro (hfr | ⟨f, hme, hfr⟩)
    · exact ⟨e, by simp, hfr⟩
    · exact ⟨f, by simp [hme], hfr⟩

theorem inOrder_cons :
    InOrder (e :: r) ↔ 0 < e.size ∧ (∀ f ∈ r, e.page + e.size ≤ f.page) ∧ InOrder r := by
  constructor
  · intro h
    obtain ⟨hle, hr⟩ := pairwise_cons.1 h.apart
    exact ⟨h.pos e (by simp), hle, hr, fun f hf => h.pos f (by simp [hf])⟩
  · rintro ⟨hpos, hle, hr⟩
    refine ⟨pairwise_cons.2 ⟨hle, hr.apart⟩, fun f hf => ?_⟩
    rcases mem_cons.1 hf with rfl | hf
    · exact hpos
    · exact hr.pos f hf

/-- Two regions of the list are the same or do not meet. -/
theorem InOrder.eq_or_apart (h : InOrder l) (he : e ∈ l) (hf : f ∈ l) :
    e = f ∨ e.page + e.size ≤ f.page ∨ f.page + f.size ≤ e.page := by
  induction l with
  | nil => cases he
  | cons x l ih =>
    obtain ⟨-, hle, hl⟩ := inOrder_cons.1 h
    rcases mem_cons.1 he with rfl | he' <;> rcases mem_cons.1 hf with rfl | hf'
    · exact .inl rfl
    · exact .inr (.inl (hle f hf'))
    · exact .inr (.inr (hle e he'))
    · exact ih hl he' hf'

theorem InOrder.eq_of_covers (h : InOrder l) (he : e ∈ l) (hf : f ∈ l) (heq : e.Covers q)
    (hq : f.Covers q) : e = f := by
  have h1 := heq.1
  have h2 := heq.2
  have h3 := hq.1
  have h4 := hq.2
  rcases h.eq_or_apart he hf with rfl | hlt | hlt
  · rfl
  · omega
  · omega

theorem InOrder.covers_page (h : InOrder l) (he : e ∈ l) : e.Covers e.page :=
  ⟨le_rfl, by have := h.pos e he; omega⟩

theorem InOrder.eq_of_page (h : InOrder l) (he : e ∈ l) (hf : f ∈ l) (hp : e.page = f.page) : e = f :=
  h.eq_of_covers he hf (h.covers_page he) (hp ▸ h.covers_page hf)

theorem InOrder.not_freePage (h : InOrder l) (he : Used l e) (hq : e.Covers q) : ¬ FreePage l q := by
  rintro ⟨f, hf, hfr, hfq⟩
  obtain rfl := h.eq_of_covers he.1 hf hq hfq
  rw [he.2] at hfr
  cases hfr

theorem InOrder.le_of_freePage (h : InOrder (x :: l)) (hq : FreePage l q) : x.page + x.size ≤ q := by
  obtain ⟨f, hf, -, hfq⟩ := hq
  have h1 := (inOrder_cons.1 h).2.1 f hf
  have h2 := hfq.1
  omega

theorem maximal_cons (h : InOrder (x :: l)) :
    Maximal (x :: l) ↔ (x.allocated = false → ¬ FreePage l (x.page + x.size)) ∧ Maximal l := by
  obtain ⟨hpos, hle, hl⟩ := inOrder_cons.1 h
  constructor
  · intro hmx
    refine ⟨fun hx hfr => hmx x (by simp) hx (freePage_cons.2 (.inr hfr)), fun e he ha hfr => ?_⟩
    exact hmx e (by simp [he]) ha (freePage_cons.2 (.inr hfr))
  · rintro ⟨hx, hmx⟩ e he ha hfr
    rcases mem_cons.1 he with rfl | he
    · rcases freePage_cons.1 hfr with ⟨-, hc⟩ | hfr
      · exact absurd hc.2 (lt_irrefl _)
      · exact hx ha hfr
    · rcases freePage_cons.1 hfr with ⟨-, hc⟩ | hfr
      · have h1 := hle e he
        have h2 := hc.2
        omega
      · exact hmx e he ha hfr

/-! ## Reserving -/

/-- What reserving the region `e` does to the list. -/
structure Reserves (l l' : List PoolEntry) (e : PoolEntry) : Prop where
  used : ∀ f, Used l' f ↔ Used l f ∨ f = e
  free : ∀ q, FreePage l' q ↔ FreePage l q ∧ ¬ e.Covers q
  was : ∀ q, e.Covers q → FreePage l q
  order : InOrder l'
  least : ∀ m, (∀ f ∈ l, m ≤ f.page) → ∀ f ∈ l', m ≤ f.page
  maximal : Maximal l → Maximal l'

namespace Reserves

theorem mem (h : Reserves l l' e) : Used l' e := (h.used e).2 (.inr rfl)

theorem covered (h : Reserves l l' e) : Covered l' q ↔ Covered l q := by
  rw [covered_iff, covered_iff, h.free]
  constructor
  · rintro (⟨f, hf, hq⟩ | ⟨hq, -⟩)
    · rcases (h.used f).1 hf with hf | rfl
      · exact .inl ⟨f, hf, hq⟩
      · exact .inr (h.was q hq)
    · exact .inr hq
  · rintro (⟨f, hf, hq⟩ | hq)
    · exact .inl ⟨f, (h.used f).2 (.inl hf), hq⟩
    · by_cases he : e.Covers q
      · exact .inl ⟨e, h.mem, he⟩
      · exact .inr ⟨hq, he⟩

end Reserves

/-- The regions before the one that is reserved are left alone. -/
theorem Reserves.cons (hl : InOrder (x :: l)) (h : Reserves l l' e) :
    Reserves (x :: l) (x :: l') e := by
  obtain ⟨hpos, hle, hl⟩ := inOrder_cons.1 hl
  have hot : ∀ q, e.Covers q → ¬ x.Covers q := by
    intro q hq hx
    obtain ⟨f, hf, -, hfq⟩ := h.was q hq
    have h1 := hle f hf
    have h2 := hx.2
    have h3 := hfq.1
    omega
  have hfr : ∀ q, FreePage (x :: l') q ↔ FreePage (x :: l) q ∧ ¬ e.Covers q := by
    intro q
    rw [freePage_cons, freePage_cons, h.free]
    constructor
    · rintro (hx | ⟨hfr, hnt⟩)
      · exact ⟨.inl hx, fun hq => hot q hq hx.2⟩
      · exact ⟨.inr hfr, hnt⟩
    · rintro ⟨hx | hfr, hnt⟩
      · exact .inl hx
      · exact .inr ⟨hfr, hnt⟩
  refine ⟨fun f => ?_, hfr, fun q hq => freePage_cons.2 (.inr (h.was q hq)),
    inOrder_cons.2 ⟨hpos, h.least _ hle, h.order⟩, fun m hm f hf => ?_, fun hmx => ?_⟩
  · rw [used_cons, used_cons, h.used, or_assoc]
  · rcases mem_cons.1 hf with rfl | hf
    · exact hm f (by simp)
    · exact h.least m (fun g hg => hm g (by simp [hg])) f hf
  · obtain ⟨hx, hmx⟩ := (maximal_cons (inOrder_cons.2 ⟨hpos, hle, hl⟩)).1 hmx
    refine (maximal_cons (inOrder_cons.2 ⟨hpos, h.least _ hle, h.order⟩)).2
      ⟨fun ha hfr => hx ha ((h.free _).1 hfr).1, h.maximal hmx⟩

/-- The first region is reserved, or its first pages are. -/
theorem reserves_head (hl : InOrder (x :: l)) (hfr : x.allocated = false) (hn : 0 < n)
    (he : e.page = x.page ∧ e.size = n ∧ e.allocated = true) :
    (x.size = n → Reserves (x :: l) (e :: l) e) ∧
      ∀ f : PoolEntry, f.page = x.page + n → f.size = x.size - n → f.allocated = false → n < x.size →
        Reserves (x :: l) (e :: f :: l) e := by
  obtain ⟨hpos, hle, hl⟩ := inOrder_cons.1 hl
  obtain ⟨hp, hz, ha⟩ := he
  have hc : ∀ q, e.Covers q ↔ x.page ≤ q ∧ q < x.page + n := by
    intro q
    rw [PoolEntry.Covers, hp, hz]
  have hnt : ∀ q, FreePage l q → x.page + x.size ≤ q := by
    rintro q ⟨f, hf, -, hfq⟩
    have h1 := hle f hf
    have h2 := hfq.1
    omega
  constructor
  · intro heq
    have hsm : ∀ q, e.Covers q ↔ x.Covers q := by
      intro q
      rw [hc, PoolEntry.Covers, heq]
    have hor : InOrder (e :: l) := inOrder_cons.2 ⟨by omega, fun f hf => by
      have := hle f hf
      omega, hl⟩
    refine ⟨fun f => ?_, fun q => ?_, fun q hq => freePage_cons.2 (.inl ⟨hfr, (hsm q).1 hq⟩),
      hor, fun m hm f hf => ?_, fun hmx => ?_⟩
    · simp [used_cons, hfr, ha, or_comm]
    · rw [freePage_cons, freePage_cons, hc]
      constructor
      · rintro (⟨hx, -⟩ | hq)
        · rw [ha] at hx
          cases hx
        · have := hnt q hq
          exact ⟨.inr hq, by omega⟩
      · rintro ⟨⟨-, hq⟩ | hq, hot⟩
        · exact absurd ((hc q).1 ((hsm q).2 hq)) hot
        · exact .inr hq
    · rcases mem_cons.1 hf with rfl | hf
      · rw [hp]
        exact hm x (by simp)
      · exact hm f (by simp [hf])
    · refine (maximal_cons hor).2 ⟨fun hx => ?_,
        ((maximal_cons (inOrder_cons.2 ⟨hpos, hle, hl⟩)).1 hmx).2⟩
      rw [ha] at hx
      cases hx
  · intro f hfp hfs hff hlt
    have hcv : ∀ q, f.Covers q ↔ x.page + n ≤ q ∧ q < x.page + x.size := by
      intro q
      rw [PoolEntry.Covers, hfp, hfs]
      omega
    have hor' : InOrder (f :: l) := inOrder_cons.2 ⟨by omega, fun g hg => by
      have := hle g hg
      omega, hl⟩
    have hor : InOrder (e :: f :: l) := inOrder_cons.2 ⟨by omega, fun g hg => by
      rcases mem_cons.1 hg with rfl | hg
      · omega
      · have := hle g hg
        omega, hor'⟩
    refine ⟨fun g => ?_, fun q => ?_, fun q hq => freePage_cons.2 (.inl ⟨hfr, ?_⟩), hor,
      fun m hm g hg => ?_, fun hmx => ?_⟩
    · simp [used_cons, hfr, ha, hff, or_comm]
    · rw [freePage_cons, freePage_cons, freePage_cons, hc, hcv]
      constructor
      · rintro (⟨hx, -⟩ | ⟨-, hq⟩ | hq)
        · rw [ha] at hx
          cases hx
        · exact ⟨.inl ⟨hfr, ⟨by omega, by omega⟩⟩, by omega⟩
        · have := hnt q hq
          exact ⟨.inr hq, by omega⟩
      · rintro ⟨⟨-, hq⟩ | hq, hot⟩
        · have h1 := hq.1
          have h2 := hq.2
          exact .inr (.inl ⟨hff, by omega⟩)
        · exact .inr (.inr hq)
    · have := (hc q).1 hq
      exact ⟨by omega, by omega⟩
    · rcases mem_cons.1 hg with rfl | hg
      · rw [hp]
        exact hm x (by simp)
      rcases mem_cons.1 hg with rfl | hg
      · have := hm x (by simp)
        omega
      · exact hm g (by simp [hg])
    · obtain ⟨hx, hmx⟩ := (maximal_cons (inOrder_cons.2 ⟨hpos, hle, hl⟩)).1 hmx
      refine (maximal_cons hor).2 ⟨fun hx => ?_, (maximal_cons hor').2 ⟨fun _ => ?_, hmx⟩⟩
      · rw [ha] at hx
        cases hx
      · have hen : f.page + f.size = x.page + x.size := by omega
        rw [hen]
        exact hx hfr

/-- **First fit** finds its region among the free pages. At most one list entry is new. -/
theorem reserves_sub (hl : InOrder l) (hn : 0 < n)
    (h : miReservePoolSpaceTaggedSub hd created n tag userData l = some (hd', l', e)) :
    Reserves l l' e ∧ (e.size = n ∧ e.allocated = true ∧ e.tag = tag ∧ e.userData = userData) ∧
      (hd' = hd ∧ handles l' = handles l ∨
        ∃ a, created = some (hd', a) ∧ (handles l').Perm (a :: handles l)) := by
  induction l generalizing l' with
  | nil => cases h
  | cons x l ih =>
    have hor := hl
    obtain ⟨hpos, hle, hl⟩ := inOrder_cons.1 hl
    rw [miReservePoolSpaceTaggedSub] at h
    split at h
    · obtain ⟨⟨hd₁, r, taken⟩, hr, heq⟩ := Option.map_eq_some_iff.1 h
      cases heq
      obtain ⟨hrs, hfl, hh⟩ := ih hl hr
      refine ⟨hrs.cons hor, hfl, ?_⟩
      rcases hh with ⟨rfl, hsm⟩ | ⟨a, ha, hp⟩
      · exact .inl ⟨rfl, congrArg (x.handle :: ·) hsm⟩
      · exact .inr ⟨a, ha, (hp.cons x.handle).trans (List.Perm.swap a x.handle _)⟩
    · next hft =>
        simp only [Bool.or_eq_true, decide_eq_true_eq, not_or, Bool.not_eq_true, not_lt] at hft
        obtain ⟨hfr, hsize⟩ := hft
        have hhd := reserves_head (e := ⟨x.handle, x.page, n, true, tag, userData⟩) hor hfr hn
          ⟨rfl, rfl, rfl⟩
        rw [mmpSplitEntry] at h
        split at h
        · next heq =>
            cases h
            exact ⟨hhd.1 heq, ⟨rfl, rfl, rfl, rfl⟩, .inl ⟨rfl, rfl⟩⟩
        · next hne =>
            obtain ⟨⟨hd₁, a⟩, hc, h⟩ := Option.map_eq_some_iff.1 h
            cases h
            exact ⟨hhd.2 ⟨a, x.page + n, x.size - n, false, miEmptyTag, 0⟩ rfl rfl rfl (by omega),
              ⟨rfl, rfl, rfl, rfl⟩, .inr ⟨a, hc, List.Perm.swap a x.handle _⟩⟩

/-! ## Freeing -/

section

variable (p e hd)

/-- The entry after a joined one, and what became of the headers. -/
theorem connect_cases : mmpTryConnectEntryWithItsFlink p hd e r = (hd, e :: r) ∧
        (∀ f, r.head? = some f → e.allocated = false → f.allocated = false → f.page ≠ e.page + e.size) ∨
      ∃ f r', r = f :: r' ∧ e.allocated = false ∧ f.allocated = false ∧ f.page = e.page + e.size ∧
        mmpTryConnectEntryWithItsFlink p hd e r =
          (hd.miDeletePoolEntry p f.handle, { e with size := e.size + f.size } :: r') := by
  cases r with
  | nil => exact .inl ⟨rfl, nofun⟩
  | cons x r =>
    rw [mmpTryConnectEntryWithItsFlink]
    split
    · next hj =>
        simp only [Bool.and_eq_true, Bool.not_eq_true', beq_iff_eq] at hj
        exact .inr ⟨x, r, rfl, hj.1.2, hj.1.1, hj.2, rfl⟩
    · next hj =>
        refine .inl ⟨rfl, fun f hf he hfr hp => hj ?_⟩
        cases hf
        simp [he, hfr, hp]

/-- Joining two free regions is seen neither in the regions in use... -/
theorem used_connect : Used (mmpTryConnectEntryWithItsFlink p hd e r).2 f ↔ Used (e :: r) f := by
  rcases connect_cases p e hd (r := r) with ⟨hsm, -⟩ | ⟨x, r', rfl, he, hx, -, hj⟩
  · rw [hsm]
  · rw [hj]
    simp [used_cons, hx, he]

theorem freePage_connect :
    FreePage (mmpTryConnectEntryWithItsFlink p hd e r).2 q ↔ FreePage (e :: r) q := by
  rcases connect_cases p e hd (r := r) with ⟨hsm, -⟩ | ⟨x, r', rfl, he, hx, hp, hj⟩
  · rw [hsm]
  · rw [hj, freePage_cons, freePage_cons, freePage_cons, ← or_assoc]
    refine or_congr_left ?_
    simp only [he, hx, true_and, PoolEntry.Covers]
    omega

variable {e}

theorem inOrder_connect (h : InOrder (e :: r)) :
    InOrder (mmpTryConnectEntryWithItsFlink p hd e r).2 := by
  rcases connect_cases p e hd (r := r) with ⟨hsm, -⟩ | ⟨x, r', rfl, -, -, hp, hj⟩
  · rw [hsm]
    exact h
  · obtain ⟨hpos, -, hr⟩ := inOrder_cons.1 h
    obtain ⟨-, hle, hr⟩ := inOrder_cons.1 hr
    rw [hj]
    refine inOrder_cons.2 ⟨?_, fun f hf => ?_, hr⟩
    · show 0 < e.size + x.size
      omega
    · have := hle f hf
      show e.page + (e.size + x.size) ≤ f.page
      omega

theorem page_le_of_connect {m : Nat} (h : ∀ g ∈ e :: r, m ≤ g.page)
    (hf : f ∈ (mmpTryConnectEntryWithItsFlink p hd e r).2) : m ≤ f.page := by
  rcases connect_cases p e hd (r := r) with ⟨hsm, -⟩ | ⟨x, r', rfl, -, -, -, hj⟩
  · rw [hsm] at hf
    exact h f hf
  · rw [hj] at hf
    rcases mem_cons.1 hf with rfl | hf
    · exact h e (by simp)
    · exact h f (by simp [hf])

/-- A free page right after the first region is the start of the second. -/
theorem head_of_freePage (h : InOrder (e :: r)) (hq : FreePage r (e.page + e.size)) :
    ∃ f, r.head? = some f ∧ f.allocated = false ∧ f.page = e.page + e.size := by
  obtain ⟨-, hle, hr⟩ := inOrder_cons.1 h
  cases r with
  | nil =>
    obtain ⟨f, hf, -⟩ := hq
    cases hf
  | cons x r =>
    have hx := hle x (by simp)
    rcases freePage_cons.1 hq with ⟨hfr, hc⟩ | hrs
    · have := hc.1
      exact ⟨x, rfl, hfr, by omega⟩
    · have := hr.le_of_freePage hrs
      have := hr.pos x (by simp)
      omega

theorem maximal_connect (h : InOrder (e :: r)) (hmx : Maximal r) :
    Maximal (mmpTryConnectEntryWithItsFlink p hd e r).2 := by
  have hor := inOrder_connect p hd h
  rcases connect_cases p e hd (r := r) with ⟨hsm, hfs⟩ | ⟨x, r', rfl, -, hx, hp, hj⟩
  · rw [hsm]
    refine (maximal_cons h).2 ⟨fun he hfr => ?_, hmx⟩
    obtain ⟨f, hf, ha, hp⟩ := head_of_freePage h hfr
    exact hfs f hf he ha hp
  · obtain ⟨-, -, hr⟩ := inOrder_cons.1 h
    obtain ⟨hxm, hmx⟩ := (maximal_cons hr).1 hmx
    rw [hj] at hor ⊢
    refine (maximal_cons hor).2 ⟨fun _ => ?_, hmx⟩
    have hen : e.page + (e.size + x.size) = x.page + x.size := by omega
    show ¬ FreePage r' (e.page + (e.size + x.size))
    rw [hen]
    exact hxm hx

end

/-- The headers in use are those of the list. -/
structure Held (p : Port) (hd : PoolHeaders) (hs : List Nat) : Prop where
  ok : hd.Ok p
  nodup : hs.Nodup
  taken : ∀ a, hd.Taken p a ↔ a ∈ hs

namespace Held

variable {hs hs' : List Nat} {a : Nat} {frame : Option Nat}

theorem perm (h : Held p hd hs) (hp : hs.Perm hs') : Held p hd hs' :=
  ⟨h.ok, hp.nodup_iff.1 h.nodup, fun a => (h.taken a).trans hp.mem_iff⟩

theorem create (h : Held p hd hs) (hf : hd.Fresh p frame)
    (hc : hd.miCreatePoolEntry p frame = some (hd', a)) : Held p hd' (a :: hs) := by
  obtain ⟨hok, hcl, htk⟩ := PoolHeaders.create_spec h.ok hf hc
  refine ⟨hok, nodup_cons.2 ⟨fun hme => hcl ((h.taken a).2 hme), h.nodup⟩, fun b => ?_⟩
  rw [htk, h.taken, mem_cons, or_comm]

theorem delete (h : Held p hd (a :: hs)) : Held p (hd.miDeletePoolEntry p a) hs := by
  obtain ⟨hok, htk⟩ := PoolHeaders.delete_spec h.ok ((h.taken a).2 (by simp))
  obtain ⟨hnt, hnd⟩ := nodup_cons.1 h.nodup
  refine ⟨hok, hnd, fun b => ?_⟩
  rw [htk, h.taken, mem_cons]
  constructor
  · rintro ⟨rfl | hb, hne⟩
    · exact absurd rfl hne
    · exact hb
  · intro hb
    refine ⟨.inr hb, ?_⟩
    rintro rfl
    exact hnt hb

theorem connect {pre : List Nat} (h : Held p hd (pre ++ handles (e :: r))) :
    Held p (mmpTryConnectEntryWithItsFlink p hd e r).1
      (pre ++ handles (mmpTryConnectEntryWithItsFlink p hd e r).2) := by
  rcases connect_cases p e hd (r := r) with ⟨hsm, -⟩ | ⟨x, r', rfl, -, -, -, hj⟩
  · rw [hsm]
    exact h
  · rw [hj]
    refine (h.perm ?_).delete
    have hw : (pre ++ e.handle :: x.handle :: handles r').Perm
        (x.handle :: (pre ++ e.handle :: handles r')) :=
      (perm_append_left_iff pre |>.2 (List.Perm.swap _ _ _)).trans perm_middle
    exact hw

end Held

/-- What freeing the region `e` does to the list. -/
structure Frees (l l' : List PoolEntry) (e : PoolEntry) : Prop where
  used : ∀ f, Used l' f ↔ Used l f ∧ f ≠ e
  free : ∀ q, FreePage l' q ↔ FreePage l q ∨ e.Covers q
  order : InOrder l'
  least : ∀ m, (∀ f ∈ l, m ≤ f.page) → ∀ f ∈ l', m ≤ f.page
  maximal : Maximal l → Maximal l'

theorem Frees.covered (h : Frees l l' e) (he : Used l e) : Covered l' q ↔ Covered l q := by
  rw [covered_iff, covered_iff, h.free]
  constructor
  · rintro (⟨f, hf, hq⟩ | hq | hq)
    · exact .inl ⟨f, ((h.used f).1 hf).1, hq⟩
    · exact .inr hq
    · exact .inl ⟨e, he, hq⟩
  · rintro (⟨f, hf, hq⟩ | hq)
    · by_cases hfe : f = e
      · exact .inr (.inr (hfe ▸ hq))
      · exact .inl ⟨f, (h.used f).2 ⟨hf, hfe⟩, hq⟩
    · exact .inr (.inl hq)

theorem eq_of_handle (hl : (handles l).Nodup) (he : e ∈ l) (hf : f ∈ l)
    (heq : e.handle = f.handle) : e = f :=
  inj_on_of_nodup_map hl he hf heq

/-- **`MiFreePoolSpaceSub`** frees the region of its handle. -/
theorem frees_sub (hl : InOrder l) (hnd : (handles l).Nodup) (he : Used l e) :
    ∃ hd' l', miFreePoolSpaceSub p hd e.handle l = some (hd', l') ∧ Frees l l' e ∧
      ∀ pre, Held p hd (pre ++ handles l) → Held p hd' (pre ++ handles l') := by
  induction l with
  | nil => cases he.1
  | cons x l ih =>
    have hor := hl
    obtain ⟨hpos, hle, hl⟩ := inOrder_cons.1 hl
    rw [miFreePoolSpaceSub]
    by_cases hh : x.handle = e.handle
    · obtain rfl := eq_of_handle hnd (by simp) he.1 hh
      rw [if_pos rfl, if_pos he.2]
      have hfreed : InOrder ({ x with allocated := false, tag := miEmptyTag } :: l) :=
        inOrder_cons.2 ⟨hpos, hle, hl⟩
      refine ⟨(mmpTryConnectEntryWithItsFlink p hd { x with allocated := false, tag := miEmptyTag } l).1,
        (mmpTryConnectEntryWithItsFlink p hd { x with allocated := false, tag := miEmptyTag } l).2, rfl,
        ⟨fun f => ?_, fun q => ?_, inOrder_connect p hd hfreed, fun m hm f hf => ?_,
        fun hmx => maximal_connect p hd hfreed ((maximal_cons hor).1 hmx).2⟩,
        fun pre hhl => Held.connect hhl⟩
      · rw [used_connect, used_cons, used_cons]
        constructor
        · rintro (⟨-, hx⟩ | hf)
          · cases hx
          · refine ⟨.inr hf, ?_⟩
            rintro rfl
            have := hle f hf.1
            omega
        · rintro ⟨⟨rfl, -⟩ | hf, hne⟩
          · exact absurd rfl hne
          · exact .inr hf
      · rw [freePage_connect, freePage_cons, freePage_cons]
        simp only [he.2, Bool.true_eq_false, false_and, false_or, true_and]
        exact or_comm
      · refine page_le_of_connect p hd (fun g hg => ?_) hf
        rcases mem_cons.1 hg with rfl | hg
        · exact hm x (by simp)
        · exact hm g (by simp [hg])
    · have hne : e ≠ x := fun h => hh (h ▸ rfl)
      have hme : Used l e := (used_cons.1 he).resolve_left fun h => hne h.1
      obtain ⟨hd₁, r, hr, hfs, hhl⟩ := ih hl (nodup_cons.1 hnd).2 hme
      rw [if_neg hh, hr, Option.map_some]
      have hc : InOrder (x :: r) :=
        inOrder_cons.2 ⟨hpos, hfs.least _ hle, hfs.order⟩
      have hls : ∀ m, (∀ f ∈ x :: l, m ≤ f.page) → ∀ f ∈ x :: r, m ≤ f.page := by
        intro m hm f hf
        rcases mem_cons.1 hf with rfl | hf
        · exact hm f (by simp)
        · exact hfs.least m (fun g hg => hm g (by simp [hg])) f hf
      have hu : ∀ f, Used (x :: r) f ↔ Used (x :: l) f ∧ f ≠ e := by
        intro f
        rw [used_cons, used_cons, hfs.used]
        constructor
        · rintro (⟨rfl, hx⟩ | ⟨hf, hfe⟩)
          · exact ⟨.inl ⟨rfl, hx⟩, hne.symm⟩
          · exact ⟨.inr hf, hfe⟩
        · rintro ⟨hx | hf, hfe⟩
          · exact .inl hx
          · exact .inr ⟨hf, hfe⟩
      have hfr : ∀ q, FreePage (x :: r) q ↔ FreePage (x :: l) q ∨ e.Covers q := by
        intro q
        rw [freePage_cons, freePage_cons, hfs.free, or_assoc]
      have hp : ∀ pre, Held p hd (pre ++ handles (x :: l)) → Held p hd₁ (pre ++ handles (x :: r)) := by
        intro pre h
        have := hhl (pre ++ [x.handle]) (by simpa [handles] using h)
        simpa [handles] using this
      simp only
      split
      · exact ⟨(mmpTryConnectEntryWithItsFlink p hd₁ x r).1,
          (mmpTryConnectEntryWithItsFlink p hd₁ x r).2, rfl, ⟨fun f => (used_connect p x hd₁).trans (hu f),
          fun q => (freePage_connect p x hd₁).trans (hfr q), inOrder_connect p hd₁ hc,
          fun m hm f hf => page_le_of_connect p hd₁ (hls m hm) hf,
          fun hmx => maximal_connect p hd₁ hc (hfs.maximal ((maximal_cons hor).1 hmx).2)⟩,
          fun pre h => (hp pre h).connect⟩
      · next hhd =>
          refine ⟨_, _, rfl, ⟨hu, hfr, hc, hls, fun hmx => ?_⟩, hp⟩
          obtain ⟨hx, hmx⟩ := (maximal_cons hor).1 hmx
          refine (maximal_cons hc).2 ⟨fun ha hq => ?_, hfs.maximal hmx⟩
          -- only the region that was freed can follow `x`, and it is not its neighbour
          rcases (hfs.free _).1 hq with hq | hcv
          · exact hx ha hq
          · apply hhd
            have hcv' := hcv.1
            cases l with
            | nil => cases hme.1
            | cons y l =>
              have hxy := hle y (by simp)
              have hy := hl.pos y (by simp)
              rcases mem_cons.1 hme.1 with rfl | hlr
              · simp
              · have := (inOrder_cons.1 hl).2.1 e hlr
                omega

/-! ## The pool space -/

namespace PoolSpace

/-- The headers and the page tables say what the list of regions says, and the lock is free. -/
structure Ok (p : Port) (s : PoolSpace) : Prop where
  order : InOrder s.entries
  held : Held p s.headers (handles s.entries)
  free : ∀ q, FreePage s.entries q → s.pte q = .zero
  header : ∀ e, Used s.entries e → s.pte e.page = .header p e.handle
  unlocked : s.spaceLocked = false

/-- The region `e` is in use from now on, and its first page names it. -/
structure Reserved (p : Port) (s s' : PoolSpace) (e : PoolEntry) : Prop where
  entries : Reserves s.entries s'.entries e
  held : Held p s'.headers (handles s'.entries)
  pte : ∀ q, s'.pte q = if q = e.page then .header p e.handle else s.pte q
  byte : s'.byte = s.byte
  unlocked : s'.spaceLocked = false

/-- The region `e` is free from now on, and its first page names nothing. -/
structure Freed (p : Port) (s s' : PoolSpace) (e : PoolEntry) : Prop where
  entries : Frees s.entries s'.entries e
  held : Held p s'.headers (handles s'.entries)
  pte : ∀ q, s'.pte q = if q = e.page then .zero else s.pte q
  byte : s'.byte = s.byte
  unlocked : s'.spaceLocked = false

variable {s s' : PoolSpace} {u : PoolSupply} {flags : Nat}

theorem entryOf_handle (hh : Held p s.headers (handles s.entries)) (he : e ∈ s.entries) :
    s.entryOf e.handle = some e := by
  obtain ⟨f, hf⟩ := Option.isSome_iff_exists.1 (List.find?_isSome.2 ⟨e, he, beq_self_eq_true e.handle⟩ :
      (s.entries.find? fun f => f.handle == e.handle).isSome = true)
  have heq : f.handle = e.handle := by simpa using List.find?_some hf
  rw [entryOf, hf, eq_of_handle hh.nodup (mem_of_find?_eq_some hf) he heq]

theorem Ok.page_ne (hok : Ok p s) (he : Used s.entries e) (hf : Used s.entries f) (hne : f ≠ e)
    (hq : f.Covers q) : q ≠ e.page := by
  rintro rfl
  exact hne (hok.order.eq_of_covers hf.1 he.1 hq (hok.order.covers_page he.1))

theorem Reserved.ok (hok : Ok p s) (h : Reserved p s s' e) : Ok p s' where
  order := h.entries.order
  held := h.held
  free q hq := by
    obtain ⟨hfr, hnt⟩ := (h.entries.free q).1 hq
    have hp : q ≠ e.page := by
      rintro rfl
      exact hnt (h.entries.order.covers_page h.entries.mem.1)
    rw [h.pte, if_neg hp, hok.free q hfr]
  header f hf := by
    rw [h.pte]
    split
    · next hp => rw [h.entries.order.eq_of_page hf.1 h.entries.mem.1 hp]
    · next hp =>
        refine hok.header f (((h.entries.used f).1 hf).resolve_right ?_)
        rintro rfl
        exact hp rfl
  unlocked := h.unlocked

theorem Freed.ok (hok : Ok p s) (he : Used s.entries e) (h : Freed p s s' e)
    (hz : ∀ q, e.page < q → q < e.page + e.size → s.pte q = .zero) : Ok p s' where
  order := h.entries.order
  held := h.held
  free q hq := by
    rw [h.pte]
    split
    · rfl
    · next hp =>
        rcases (h.entries.free q).1 hq with hq | ⟨hlo, hh⟩
        · exact hok.free q hq
        · exact hz q (lt_of_le_of_ne hlo (Ne.symm hp)) hh
  header f hf := by
    obtain ⟨hold, hne⟩ := (h.entries.used f).1 hf
    rw [h.pte, if_neg (hok.page_ne he hold hne (hok.order.covers_page hold.1)), hok.header f hold]
  unlocked := h.unlocked

/-- **`MiFreePoolSpace`** frees the region of its handle. -/
theorem freeSpace (hor : InOrder s.entries) (hh : Held p s.headers (handles s.entries))
    (he : Used s.entries e) (hp : s.pte e.page = .header p e.handle)
    (hc : s.spaceLocked = false) :
    ∃ s', s.miFreePoolSpace p e.handle = some s' ∧ Freed p s s' e := by
  obtain ⟨hd', l', hl', hfr, hkp⟩ := frees_sub (p := p) hor hh.nodup he
  refine ⟨{ s.setPte e.page .zero with headers := hd', entries := l' }, ?_, hfr,
    hkp [] hh, fun q => ?_, rfl, hc⟩
  · rw [miFreePoolSpace, entryOf_handle hh he.1, Option.bind_some, hc,
      if_neg Bool.false_ne_true, if_pos hp, hl']
    rfl
  · simp only [setPte, Function.update_apply]

/-- **`MiReservePoolSpaceTagged`** changes nothing or makes a region of free pages. -/
theorem reserveSpace (tag userData : Nat) (hok : Ok p s) (hrm : u.pteRoom = true)
    (hfr : s.headers.Fresh p u.headerFrame) (hn : n + 1 < p.addresses) :
    ∃ s' r, s.miReservePoolSpaceTagged p u n tag userData = some (s', r) ∧
      (r = none ∧ s' = s ∧ miReservePoolSpaceTaggedSub s.headers
          (s.headers.miCreatePoolEntry p u.headerFrame) (n + 1) tag userData s.entries = none ∨
        ∃ e, r = some (e.handle, e.page + 1) ∧ Reserved p s s' e ∧ e.size = n + 1 ∧
          e.userData = userData) := by
  rw [miReservePoolSpaceTagged, show p.add n 1 = n + 1 from Nat.mod_eq_of_lt hn]
  cases hb : miReservePoolSpaceTaggedSub s.headers (s.headers.miCreatePoolEntry p u.headerFrame)
      (n + 1) tag userData s.entries with
  | none => exact ⟨s, none, rfl, .inl ⟨rfl, rfl, rfl⟩⟩
  | some r =>
    obtain ⟨hd', l', e⟩ := r
    obtain ⟨hrs, ⟨hsize, -, -, hu⟩, hh⟩ := reserves_sub hok.order (Nat.succ_pos n) hb
    have hz : s.pte e.page = .zero :=
      hok.free e.page (hrs.was e.page (hrs.order.covers_page hrs.mem.1))
    refine ⟨{ s.setPte e.page (.header p e.handle) with headers := hd', entries := l' },
      some (e.handle, e.page + 1), ?_, .inr ⟨e, rfl, ⟨hrs, ?_, fun q => ?_, rfl, hok.unlocked⟩,
        hsize, hu⟩⟩
    · simp only [hok.unlocked, Bool.false_eq_true, if_false, hrm, if_true, hz]
    · rcases hh with ⟨rfl, hsm⟩ | ⟨a, hc, hp⟩
      · exact hok.held.perm (.of_eq hsm.symm)
      · exact (hok.held.create hfr hc).perm hp.symm
    · simp only [setPte, Function.update_apply]

/-- **`MiGetPoolSpaceHandleFromAddress`** finds the handle of a region in use. -/
theorem handle_of_address (hok : Ok p s) (he : Used s.entries e) :
    s.miGetPoolSpaceHandleFromAddress p (e.page + 1) = some e.handle := by
  have htk : s.headers.Taken p e.handle :=
    (hok.held.taken e.handle).2 (List.mem_map.2 ⟨e, he.1, rfl⟩)
  obtain ⟨hkn, hread⟩ := handle_codec hok.held.ok htk
  rw [miGetPoolSpaceHandleFromAddress, hok.unlocked, if_neg Bool.false_ne_true, Nat.add_sub_cancel,
    hok.header e he, PoolPte.header]
  simp only [hkn, if_true, hread]

end PoolSpace

end Boron.Mm
