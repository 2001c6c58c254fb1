import Boron.Mm.PoolRegions

/-! # Who owns a region of the pool (`mm/pool.c`, `mm/poolsup.c`)

When memory runs out in the middle of a call, the lock of the pool is kept or page table entries
behind the region are cleared. What is left in every case: the list of regions is in order, and the
owner of a region keeps it until it frees it (`Owned`). The first page of the region then names it,
or has been cleared, in which case it can no longer be freed. -/

namespace Boron.Mm.PoolSpace

open Option

variable {p : Port} {s s' : PoolSpace} {e f : PoolEntry} {u : PoolSupply} {n tag userData : Nat}

/-- The list of regions is in order, and its entries are held. -/
structure Listed (p : Port) (s : PoolSpace) : Prop where
  order : InOrder s.entries
  held : Held p s.headers (handles s.entries)

/-- The region is in use, and its first page names it or nothing. -/
structure Owned (p : Port) (s : PoolSpace) (e : PoolEntry) : Prop where
  used : Used s.entries e
  page : s.pte e.page = .header p e.handle ∨ s.pte e.page = .zero

/-- Page table entries of other pages have changed, or entries have been cleared. -/
theorem Owned.congr (h : Owned p s e) (hu : Used s'.entries e)
    (hp : s'.pte e.page = s.pte e.page ∨ s'.pte e.page = .zero) : Owned p s' e where
  used := hu
  page := by
    rcases hp with hsm | hz
    · rw [hsm]
      exact h.page
    · exact .inr hz

theorem Listed.congr (h : Listed p s) (he : s'.entries = s.entries)
    (hh : s'.headers = s.headers) : Listed p s' where
  order := he ▸ h.order
  held := by
    rw [he, hh]
    exact h.held

/-! ## Reserving and freeing -/

/-- What a call that reserves a region leaves of the regions of others. -/
structure Leaves (p : Port) (s s' : PoolSpace) : Prop where
  listed : Listed p s'
  owned : ∀ f, Owned p s f → Owned p s' f

/-- The region is new in `s'`, in pages that were free. -/
structure Gains (p : Port) (s s' : PoolSpace) (e : PoolEntry) (n userData : Nat) : Prop where
  owned : Owned p s' e
  size : e.size = n + 1
  userData : e.userData = userData
  apart : ∀ f, Used s.entries f → f.page + f.size ≤ e.page ∨ e.page + e.size ≤ f.page

theorem reserves_apart {l l' : List PoolEntry} (hl : InOrder l) (h : Reserves l l' e)
    (hf : Used l f) : f.page + f.size ≤ e.page ∨ e.page + e.size ≤ f.page := by
  rcases h.order.eq_or_apart ((h.used f).2 (.inl hf)).1 h.mem.1 with rfl | ha
  · have hc := h.order.covers_page h.mem.1
    exact absurd (h.was _ hc) (hl.not_freePage hf hc)
  · exact ha

theorem reserve_leaves (hl : Listed p s) (hfh : s.headers.Fresh p u.headerFrame)
    (hn : n + 1 < p.addresses) {r : Option (Nat × Nat)}
    (hs : s.miReservePoolSpaceTagged p u n tag userData = some (s', r)) :
    Leaves p s s' ∧ ∀ x ∈ r, ∃ e, x = (e.handle, e.page + 1) ∧ Gains p s s' e n userData := by
  rw [miReservePoolSpaceTagged, show p.add n 1 = n + 1 from Nat.mod_eq_of_lt hn] at hs
  cases hb : miReservePoolSpaceTaggedSub s.headers (s.headers.miCreatePoolEntry p u.headerFrame)
      (n + 1) tag userData s.entries with
  | none =>
    rw [hb] at hs
    cases hs
    exact ⟨⟨hl, fun _ hf => hf⟩, fun _ hx => (not_mem_none _ hx).elim⟩
  | some made =>
    obtain ⟨hd', l', e⟩ := made
    rw [hb] at hs
    dsimp only at hs
    obtain ⟨hrs, ⟨hsize, -, -, hu⟩, hh⟩ := reserves_sub hl.order (Nat.succ_pos n) hb
    have hh' : Held p hd' (handles l') := by
      rcases hh with ⟨rfl, hsm⟩ | ⟨a, hc, hp⟩
      · exact hl.held.perm (.of_eq hsm.symm)
      · exact (hl.held.create hfh hc).perm hp.symm
    have ha : ∀ f, Used s.entries f → f.page + f.size ≤ e.page ∨ e.page + e.size ≤ f.page := fun f hf =>
          reserves_apart hl.order hrs hf
    have hpg : ∀ f, Used s.entries f → f.page ≠ e.page := by
      intro f hf heq
      have hpos := hl.order.pos f hf.1
      rcases ha f hf with hle | hle
      · omega
      · omega
    by_cases hlc : s.spaceLocked = true
    · rw [if_pos hlc] at hs
      cases hs
    · rw [if_neg hlc] at hs
      by_cases hrm : u.pteRoom = true
      · rw [if_pos hrm] at hs
        by_cases hz : s.pte e.page = .zero
        · rw [if_pos hz] at hs
          cases hs
          refine ⟨⟨⟨hrs.order, hh'⟩, fun f hf => ?_⟩, ?_⟩
          · exact hf.congr ((hrs.used f).2 (.inl hf.used))
              (.inl (Function.update_of_ne (hpg f hf.used) ..))
          · intro x hx
            cases hx
            exact ⟨e, rfl, ⟨⟨hrs.mem, .inl (Function.update_self ..)⟩, hsize, hu, ha⟩⟩
        · rw [if_neg hz] at hs
          cases hs
      · -- there is no page table: the region is freed again, and the lock is kept
        rw [if_neg hrm] at hs
        have hb' : ∃ hd'' l'', miFreePoolSpaceSub p hd' e.handle l' = some (hd'', l'') ∧
            Frees l' l'' e ∧ ∀ pre, Held p hd' (pre ++ handles l') →
              Held p hd'' (pre ++ handles l'') := frees_sub hrs.order hh'.nodup hrs.mem
        obtain ⟨hd'', l'', hfr, hfs, hkp⟩ := hb'
        rw [hfr] at hs
        cases hs
        refine ⟨⟨⟨hfs.order, hkp [] hh'⟩, fun f hf => ?_⟩, fun _ hx => (not_mem_none _ hx).elim⟩
        refine hf.congr ((hfs.used f).2 ⟨(hrs.used f).2 (.inl hf.used), ?_⟩) (.inl rfl)
        rintro rfl
        exact hpg f hf.used rfl

/-- What a call that frees the region `e` leaves. -/
structure Loses (p : Port) (s s' : PoolSpace) (e : PoolEntry) : Prop where
  listed : Listed p s'
  owned : ∀ f, Owned p s f → f ≠ e → Owned p s' f
  used : ∀ f, Used s'.entries f ↔ Used s.entries f ∧ f ≠ e

theorem free_loses (hl : Listed p s) (he : Used s.entries e)
    (hs : s.miFreePoolSpace p e.handle = some s') : Loses p s s' e := by
  have hgr := hs
  rw [miFreePoolSpace, entryOf_handle hl.held he.1, bind_some] at hgr
  by_cases hc : s.spaceLocked = true
  · rw [if_pos hc] at hgr
    cases hgr
  · rw [if_neg hc] at hgr
    by_cases hp : s.pte e.page = .header p e.handle
    · obtain ⟨s₁, hs₁, hfreed⟩ := freeSpace hl.order hl.held he hp (by simpa using hc)
      cases hs.symm.trans hs₁
      refine ⟨⟨hfreed.entries.order, hfreed.held⟩, fun f hf hne => ?_, hfreed.entries.used⟩
      refine hf.congr ((hfreed.entries.used f).2 ⟨hf.used, hne⟩) ?_
      rw [hfreed.pte]
      split
      · exact .inr rfl
      · exact .inl rfl
    · rw [if_neg hp] at hgr
      cases hgr

/-! ## Memory of the pool -/

/-- `MiMapAnonPages` changes the page table entries of its pages, and clears others. -/
theorem mapAnonPages_pte (page : Nat) (np : Bool) (fra : Nat) {q : Nat} (hq : q < page ∨ page + n ≤ q) :
    (s.miMapAnonPages p page n np fra).1.pte q = s.pte q ∨
      (s.miMapAnonPages p page n np fra).1.pte q = .zero := by
  have hp : ((s.setPtes page (min n fra)
      (if np = true then .mapped else .committed p)).memset (page * pageSize) 0
        (min n fra * pageSize)).pte q = s.pte q := if_neg (by omega)
  unfold miMapAnonPages
  by_cases hdn : min n fra = n
  · rw [if_pos hdn]
    exact .inl hp
  · rw [if_neg hdn]
    by_cases hin : page + min n fra ≤ q ∧ q < page + min n fra + min n fra
    · exact .inr (if_pos hin)
    · exact .inl ((if_neg hin).trans hp)

theorem mapAnonPages_entries (page : Nat) (np : Bool) (fra : Nat) :
    (s.miMapAnonPages p page n np fra).1.entries = s.entries ∧
      (s.miMapAnonPages p page n np fra).1.headers = s.headers := by
  unfold miMapAnonPages
  dsimp only
  split
  · exact ⟨rfl, rfl⟩
  · exact ⟨rfl, rfl⟩

theorem allocateBig_leaves (hl : Listed p s) (hfs : s.headers.Fresh p u.headerFrame)
    (hn : n + 1 < p.addresses) {r : Option Nat}
    (hs : s.mmAllocatePoolBig p u poolFlagNonPaged n tag = some (s', r)) :
    Leaves p s s' ∧ ∀ x ∈ r, ∃ e, x = e.page + 1 ∧ Gains p s s' e n poolFlagNonPaged := by
  obtain ⟨⟨s₁, r₁⟩, hrs, hs⟩ := bind_eq_some_iff.1 hs
  obtain ⟨hlv, hgs⟩ := reserve_leaves hl hfs hn hrs
  cases r₁ with
  | none =>
    cases hs
    exact ⟨hlv, fun _ hx => (not_mem_none _ hx).elim⟩
  | some x =>
    obtain ⟨e, rfl, hgn⟩ := hgs x rfl
    dsimp only at hs
    rw [if_neg (by decide)] at hs
    have he := mapAnonPages_entries (p := p) (s := s₁) (n := n) (e.page + 1)
      (hasFlag poolFlagNonPaged poolFlagNonPaged) u.frames
    set m := s₁.miMapAnonPages p (e.page + 1) n (hasFlag poolFlagNonPaged poolFlagNonPaged)
      u.frames with hm
    have hlst : Listed p m.1 := hlv.listed.congr he.1 he.2
    have hw : ∀ f, Owned p s₁ f →
        (f = e ∨ f.page + f.size ≤ e.page ∨ e.page + e.size ≤ f.page) → Owned p m.1 f := by
      intro f hf ha
      refine hf.congr (by rw [he.1]; exact hf.used) (mapAnonPages_pte _ _ _ ?_)
      have hsize := hgn.size
      have hpos := hlv.listed.order.pos f hf.used.1
      rcases ha with rfl | ha
      · omega
      · omega
    by_cases hdn : m.2 = true
    · rw [if_pos hdn] at hs
      cases hs
      refine ⟨⟨hlst, fun f hf => ?_⟩, ?_⟩
      · exact hw f (hlv.owned f hf) (.inr (hgn.apart f hf.used))
      · intro x hx
        cases hx
        exact ⟨e, rfl, hw e hgn.owned (.inl rfl), hgn.size, hgn.userData, hgn.apart⟩
    · rw [if_neg hdn] at hs
      obtain ⟨s₂, hfr, heq⟩ := map_eq_some_iff.1 hs
      cases heq
      have hls := free_loses hlst (hw e hgn.owned (.inl rfl)).used hfr
      refine ⟨⟨hls.listed, fun f hf => ?_⟩, fun _ hx => (not_mem_none _ hx).elim⟩
      have ha := hgn.apart f hf.used
      refine hls.owned f (hw f (hlv.owned f hf) (.inr ha)) ?_
      rintro rfl
      have hpos := hl.order.pos f hf.used.1
      omega

/-- The region that `MmFreePoolBig` finds for a page after the first one of a region is that one. -/
theorem freeBig_loses (hl : Listed p s) (he : Owned p s e) (hu : e.userData = poolFlagNonPaged)
    (hs : s.mmFreePoolBig p (e.page + 1) = some s') : Loses p s s' e := by
  obtain ⟨handle, hh, hs⟩ := bind_eq_some_iff.1 hs
  have htk : s.headers.Taken p e.handle :=
    (hl.held.taken e.handle).2 (List.mem_map.2 ⟨e, he.used.1, rfl⟩)
  obtain ⟨hkn, hread⟩ := handle_codec hl.held.ok htk
  obtain rfl : handle = e.handle := by
    unfold miGetPoolSpaceHandleFromAddress at hh
    by_cases hlc : s.spaceLocked = true
    · rw [if_pos hlc] at hh
      cases hh
    · rw [if_neg hlc, Nat.add_sub_cancel] at hh
      rcases he.page with hp | hp
      · rw [hp, PoolPte.header] at hh
        dsimp only at hh
        rw [if_pos hkn, hread] at hh
        exact (some.inj hh).symm
      · have hnn : p.mmIsPoolHeaderPte 0 = false := by cases p <;> decide
        rw [hp, PoolPte.zero] at hh
        dsimp only at hh
        rw [hnn] at hh
        cases hh
  rw [entryOf_handle hl.held he.used.1, bind_some, hu, if_pos (by decide)] at hs
  have hc : ∀ f, Owned p s f → Owned p (s.setPtes (e.page + 1) (e.size - 1) .zero) f := by
    intro f hf
    refine hf.congr hf.used ?_
    by_cases hin : e.page + 1 ≤ f.page ∧ f.page < e.page + 1 + (e.size - 1)
    · exact .inr (if_pos hin)
    · exact .inl (if_neg hin)
  have hls := free_loses (s := s.setPtes (e.page + 1) (e.size - 1) .zero) (hl.congr rfl rfl) he.used hs
  exact ⟨hls.listed, fun f hf hne => hls.owned f (hc f hf) hne, hls.used⟩

theorem freeBig_returns (hl : Listed p s) (he : Used s.entries e) (hc : s.spaceLocked = false)
    (hp : s.pte e.page = .header p e.handle) (hu : e.userData = poolFlagNonPaged) :
    ∃ s', s.mmFreePoolBig p (e.page + 1) = some s' := by
  have htk : s.headers.Taken p e.handle :=
    (hl.held.taken e.handle).2 (List.mem_map.2 ⟨e, he.1, rfl⟩)
  obtain ⟨hkn, hread⟩ := handle_codec hl.held.ok htk
  have hh : s.miGetPoolSpaceHandleFromAddress p (e.page + 1) = some e.handle := by
    rw [miGetPoolSpaceHandleFromAddress, hc, if_neg Bool.false_ne_true, Nat.add_sub_cancel,
      hp, PoolPte.header]
    simp only [hkn, if_true, hread]
  obtain ⟨s', hs', -⟩ := freeSpace (s := s.setPtes (e.page + 1) (e.size - 1) .zero) hl.order hl.held
    he ((if_neg (by omega)).trans hp) hc
  refine ⟨s', ?_⟩
  rw [mmFreePoolBig, hh, bind_some, entryOf_handle hl.held he.1, bind_some, hu, if_pos (by decide)]
  exact hs'

end Boron.Mm.PoolSpace
