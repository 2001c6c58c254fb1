import Boron.Mm.SlabBlocks

/-! # Runs of the slab allocator (`mm/slab.c`)

Every step of `SlabSystem` keeps the invariant, as long as no item that has more than 32 entries
gets its 32nd live block, and the invariant gives what should hold of the blocks. -/

namespace Boron.Mm.SlabSystem

open List Option

open SlabItem PoolSpace

variable {p : Port} {z : SlabSizes} {s s' : SlabSystem} {it jt : SlabItem} {b : SlabBlock}
  {j k : Nat} {space : PoolSpace}

namespace Inv

/-! ## Allocations -/

theorem take (hi : Inv p z s) (hit : it ∈ s.pool.items) (hls : space.Listed p)
    (hrg : ∀ e, s.pool.space.Owned p e → space.Owned p e) (hj : j < 32)
    (hc : j < it.capacity p z) (hfr : it.block p z j ∉ s.live)
    (hw : 32 < it.capacity p z → (it.liveIn s.live).length < 31) :
    Inv p z ⟨⟨space, s.pool.items.map fun o => if o.page = it.page
      then it.setWord 0 (it.bitmap 0 ||| intBit p j) else o, s.pool.tree⟩,
      it.block p z j :: s.live⟩ := by
  have hok := hi.item it hit
  have hu : ∀ i, it.InUse p z (it.block p z j :: s.live) i ↔ it.InUse p z s.live i ∨ i = j := by
    intro i
    constructor
    · rintro ⟨hlt, hlt', hme⟩
      rcases mem_cons.1 hme with heq | hme
      · exact .inr (block_inj hok.sizeClass heq)
      · exact .inl ⟨hlt, hlt', hme⟩
    · rintro (⟨hlt, hlt', hme⟩ | rfl)
      · exact ⟨hlt, hlt', mem_cons_of_mem _ hme⟩
      · exact ⟨hj, hc, mem_cons_self⟩
  refine hi.replace hit hls hrg ?_ ((hok.tracks.take hj hc).congr hu)
    ⟨j, (hu j).2 (.inr rfl)⟩ ?_ ?_ (nodup_cons.2 ⟨hfr, hi.nodup⟩)
  · intro b hb
    rw [mem_cons]
    refine or_iff_right ?_
    rintro rfl
    exact hb (holds_block hok.sizeClass hc)
  · intro hlr
    refine exists_free hok.sizeClass hlr.le ?_
    have hcn : it.liveIn (it.block p z j :: s.live) = it.block p z j :: it.liveIn s.live :=
      filter_cons_of_pos (by simpa using holds_block hok.sizeClass hc)
    rw [hcn, length_cons]
    omega
  · intro b hb hholds
    rcases mem_cons.1 hb with rfl | hme
    · exact ⟨j, (hu j).2 (.inr rfl), rfl⟩
    · obtain ⟨i, hi', rfl⟩ := hi.block_of_holds hit hme hholds
      exact ⟨i, (hu i).2 (.inl hi'), rfl⟩

theorem make (hi : Inv p z s) (hk : k < slabSizeCount) (np : Bool) {space' : PoolSpace}
    {e : PoolEntry} (hlv : Leaves p s.pool.space space)
    (hgn : Gains p s.pool.space space e
      ((mmpSlabItemDetermineLength (z.size k) + pageSize - 1) / pageSize) poolFlagNonPaged)
    (hls : space'.Listed p) (hrg : ∀ f, space.Owned p f → space'.Owned p f)
    (tree : List Nat) (hit : it = ⟨e.page + 1, mmpSlabItemDetermineLength (z.size k), fun _ => 0,
      np, k⟩) :
    Inv p z ⟨⟨space', s.pool.items ++ [it.setWord 0 (it.bitmap 0 ||| intBit p 0)], tree⟩,
      it.block p z 0 :: s.live⟩ := by
  have hclass : it.sizeClass < slabSizeCount := hit ▸ hk
  have hlength : it.length = mmpSlabItemDetermineLength (z.size it.sizeClass) := by rw [hit]
  have hp : it.page = e.page + 1 := by rw [hit]
  have hc : 0 < it.capacity p z := capacity_pos hclass hlength
  have hsize : e.size * pageSize = it.length + pageSize := by
    obtain ⟨m, hm⟩ := length_pages (z.size k)
    rw [hgn.size, hit, show pageSize = 4096 from rfl]
    dsimp only
    rw [hm, show pageSize = 4096 from rfl]
    omega
  -- regions of other items do not meet the new one
  have hfr : ∀ jt ∈ s.pool.items, jt.page ≠ it.page ∧ jt.Apart it := by
    intro jt hj
    have hln := (hi.item jt hj).pages
    obtain ⟨f, hw, hfp, hfs, -⟩ := (hi.item jt hj).region
    have ha := hgn.apart f hw.used
    rw [show pageSize = 4096 from rfl] at hsize hfs hln
    refine ⟨by omega, ?_⟩
    unfold SlabItem.Apart
    rw [show pageSize = 4096 from rfl]
    omega
  have hnw : ∀ i, it.block p z i ∈ s.live → ¬ i < it.capacity p z := by
    intro i hme hlt
    obtain ⟨jt, hj, i', hu, heq⟩ := hi.live _ hme
    have hholds := holds_block (hi.item jt hj).sizeClass hu.2.1
    exact (hfr jt hj).2.not_holds hholds (heq ▸ holds_block hclass hlt)
  have hu : ∀ i, it.InUse p z (it.block p z 0 :: s.live) i ↔ False ∨ i = 0 := by
    intro i
    rw [false_or]
    constructor
    · rintro ⟨-, hlt, hme⟩
      rcases mem_cons.1 hme with heq | hme
      · exact block_inj hclass heq
      · exact absurd hlt (hnw i hme)
    · rintro rfl
      exact ⟨by decide, hc, mem_cons_self⟩
  have htr : it.Tracks p (z.size it.sizeClass) fun _ => False := by
    rw [hit]
    exact tracks_zero ..
  have hw := hrg e hgn.owned
  refine hi.add hls
    (fun f hf => hrg f (hlv.owned f hf)) (fun jt hj => (hfr jt hj).1)
    (fun jt hj => (hfr jt hj).2) ?_ ?_ ?_ ?_
  · intro b hb
    rw [mem_cons]
    refine or_iff_right ?_
    rintro rfl
    exact hb (holds_block hclass hc)
  · exact
      { sizeClass := hclass
        length := hlength
        region := ⟨e, hw, hp.symm, hsize, hgn.userData⟩
        tracks := (htr.take (by decide) hc).congr hu
        inUse := ⟨0, (hu 0).2 (.inr rfl)⟩
        spare := fun hlr => ⟨1, by decide, fun hme => by
          have hon : it.InUse p z (it.block p z 0 :: s.live) 1 :=
            ⟨by decide, Nat.lt_trans (by decide) hlr, hme⟩
          rcases (hu 1).1 hon with h | h
          · exact h
          · cases h⟩ }
  · intro b hb hholds
    rcases mem_cons.1 hb with rfl | hme
    · exact ⟨0, (hu 0).2 (.inr rfl), rfl⟩
    · obtain ⟨jt, hj, i, hi', rfl⟩ := hi.live b hme
      exact absurd hholds ((hfr jt hj).2.not_holds
        (holds_block (hi.item jt hj).sizeClass hi'.2.1))
  · exact nodup_cons.2 ⟨fun hme => hnw 0 hme hc, hi.nodup⟩

/-- The step lemma for `MmpSlabContainerAllocate`. -/
theorem allocate (hi : Inv p z s) {u : PoolSupply} {np : Bool} {pool : Pool} {r : Option Nat}
    (hk : k < slabSizeCount) (hfs : s.pool.space.headers.Fresh p u.headerFrame)
    (hw : FewBlocks p z s (.allocate u np k))
    (hs : s.pool.mmpSlabContainerAllocate p z u np k = some (pool, r)) :
    Inv p z ⟨pool, (r.map fun adr => ⟨adr, k⟩).toList ++ s.live⟩ := by
  unfold Pool.mmpSlabContainerAllocate at hs
  dsimp only at hs
  rcases takeSlot_spec np k hi.pages hi.item with hnn | ⟨it, hit, hng, rfl, j, hj, hc, hfr, hfn⟩
  · rw [hnn, bind_some] at hs
    obtain ⟨⟨space, r₁⟩, hb, hs⟩ := bind_eq_some_iff.1 hs
    have hpages : (mmpSlabItemDetermineLength (z.size k) + pageSize - 1) / pageSize + 1
        < p.addresses := by
      obtain ⟨-, hsize⟩ := z.size_bounds hk
      have hlength : mmpSlabItemDetermineLength (z.size k) ≤ 135168 := by
        unfold mmpSlabItemDetermineLength
        rw [show pageSize = 4096 from rfl]
        split
        · omega
        · omega
      rw [show pageSize = 4096 from rfl]
      cases p <;> simp only [Port.addresses] <;> omega
    obtain ⟨hlv, hgs⟩ := allocateBig_leaves hi.listed hfs hpages hb
    cases r₁ with
    | none =>
      cases hs
      exact hi.setSpace hlv.listed fun _ _ e he _ => hlv.owned e he
    | some page =>
      obtain ⟨e, rfl, hgn⟩ := hgs page rfl
      obtain ⟨it, hit⟩ : ∃ it : SlabItem, it = ⟨e.page + 1,
        mmpSlabItemDetermineLength (z.size k), fun _ => 0, np, k⟩ := ⟨_, rfl⟩
      have htr : it.Tracks p (z.size k) fun _ => False := by
        rw [hit]
        exact tracks_zero ..
      have hc : 0 < it.entries p (z.size k) := by
        rw [hit]
        exact entries_pos p (z.size_bounds hk).1
      obtain ⟨i, hle, -, -, hy⟩ := htr.tryAllocate_some (by decide) hc fun h => h
      obtain rfl := Nat.le_zero.1 hle
      dsimp only at hs
      rw [Pool.addItem] at hs
      rw [← hit, hy, bind_some, map_some] at hs
      cases hs
      have hbl : (⟨it.slotAddress p (z.size k) 0 0, k⟩ : SlabBlock) = it.block p z 0 := by
        rw [hit]
        rfl
      rw [map_some, hbl]
      refine hi.make hk np hlv hgn ?_ ?_ _ hit
      · exact hlv.listed.congr rfl rfl
      · exact fun f hf => hf.congr hf.used (.inl rfl)
  · rw [hfn, bind_some] at hs
    cases hs
    exact hi.take hit (hi.listed.congr rfl rfl) (fun f hf => hf.congr hf.used (.inl rfl)) hj hc
      hfr (hw it hit hng rfl)

/-! ## Frees -/

/-- An item as it is when its block `j` has been freed. -/
def dropped (p : Port) (it : SlabItem) (j : Nat) : SlabItem :=
  it.setWord 0 (it.bitmap 0 &&& ~~~intBit p j)

section

variable (hi : Inv p z s)
include hi

/-- What `MmpSlabContainerFree` does with a live block: it frees the memory of the item if there is
no other live block in it, and otherwise changes its bitmap. -/
theorem containerFree (hit : it ∈ s.pool.items) (hus : it.InUse p z s.live j) :
    ((∀ c ∈ s.live.erase (it.block p z j), ¬ it.Holds c) ∧
      s.pool.mmpSlabContainerFree p z it (it.block p z j).address =
        (s.pool.space.mmFreePoolBig p it.page).map fun space =>
          { space := space
            items := s.pool.items.filter fun other => other.page != it.page
            tree := if mmpRequiresRbTreeEntry (z.size it.sizeClass) then s.pool.tree.erase it.page
              else s.pool.tree }) ∨
    (∃ c ∈ s.live.erase (it.block p z j), it.Holds c) ∧
      s.pool.mmpSlabContainerFree p z it (it.block p z j).address = some { s.pool with
        items := s.pool.items.map fun o => if o.page = it.page then dropped p it j else o } := by
  have hok := hi.item it hit
  have hpos := size_pos (z := z) hok.sizeClass
  have hdf : (it.block p z j).address - (it.page * pageSize + slabHeader p)
      = j * z.size it.sizeClass := by
    simp only [block, slotAddress, Nat.mul_zero, Nat.zero_add, Nat.add_sub_cancel_left]
  have hmd : j * z.size it.sizeClass % z.size it.sizeClass = 0 := Nat.mul_mod_left ..
  have hdv : j * z.size it.sizeClass / z.size it.sizeClass = j := Nat.mul_div_cancel _ hpos
  have hlw := hus.1
  have hw : j / 64 = 0 := Nat.div_eq_of_lt (by omega)
  have hb : j % 64 = j := Nat.mod_eq_of_lt (by omega)
  -- the item is unused if no other live block is in it
  have hu : Pool.isUnused (dropped p it j) (z.size it.sizeClass) = true ↔
      ∀ c ∈ s.live.erase (it.block p z j), ¬ it.Holds c := by
    refine ((hok.tracks.drop hus.1).isUnused_iff _).trans ⟨?_, ?_⟩
    · intro hnn c hc hholds
      obtain ⟨hne, hme⟩ := hi.nodup.mem_erase_iff.1 hc
      obtain ⟨i, hi', rfl⟩ := hi.block_of_holds hit hme hholds
      exact hnn i ⟨hi', fun heq => hne (heq ▸ rfl)⟩
    · rintro hnn i ⟨hi', hne⟩
      refine hnn (it.block p z i) (hi.nodup.mem_erase_iff.2 ⟨?_, hi'.2.2⟩)
        (holds_block hok.sizeClass hi'.2.1)
      exact fun heq => hne (block_inj hok.sizeClass heq)
  unfold Pool.mmpSlabContainerFree
  dsimp only
  rw [hdf, hmd, if_neg (by decide), hdv, hw, hb]
  by_cases hls : Pool.isUnused (dropped p it j) (z.size it.sizeClass) = true
  · refine .inl ⟨hu.1 hls, ?_⟩
    rw [dropped] at hls
    rw [if_pos hls]
  · refine .inr ⟨?_, ?_⟩
    · by_contra ha
      exact hls (hu.2 fun c hc hholds => ha ⟨c, hc, hholds⟩)
    · rw [dropped] at hls
      rw [if_neg hls]
      rfl

theorem drop (hit : it ∈ s.pool.items) (hu : it.InUse p z s.live j)
    (hls : ∃ c ∈ s.live.erase (it.block p z j), it.Holds c) :
    Inv p z ⟨{ s.pool with
        items := s.pool.items.map fun o => if o.page = it.page then dropped p it j else o },
      s.live.erase (it.block p z j)⟩ := by
  have hok := hi.item it hit
  have hrs : ∀ i, it.InUse p z (s.live.erase (it.block p z j)) i ↔ it.InUse p z s.live i ∧ i ≠ j := by
    intro i
    constructor
    · rintro ⟨hlt, hp, hme⟩
      obtain ⟨hne, hme⟩ := hi.nodup.mem_erase_iff.1 hme
      exact ⟨⟨hlt, hp, hme⟩, fun heq => hne (heq ▸ rfl)⟩
    · rintro ⟨⟨hlt, hp, hme⟩, hne⟩
      refine ⟨hlt, hp, hi.nodup.mem_erase_iff.2 ⟨?_, hme⟩⟩
      exact fun heq => hne (block_inj hok.sizeClass heq)
  have hfn : ∀ b ∈ s.live.erase (it.block p z j), it.Holds b →
      ∃ i, it.InUse p z (s.live.erase (it.block p z j)) i ∧ b = it.block p z i := by
    intro b hb hholds
    obtain ⟨hne, hme⟩ := hi.nodup.mem_erase_iff.1 hb
    obtain ⟨i, hi', rfl⟩ := hi.block_of_holds hit hme hholds
    exact ⟨i, (hrs i).2 ⟨hi', fun heq => hne (heq ▸ rfl)⟩, rfl⟩
  refine hi.replace hit hi.listed (fun e he => he) ?_ ((hok.tracks.drop hu.1).congr hrs) ?_ ?_
    hfn (hi.nodup.erase _)
  · intro b hb
    rw [hi.nodup.mem_erase_iff]
    refine and_iff_right ?_
    rintro rfl
    exact hb (holds_block hok.sizeClass hu.2.1)
  · obtain ⟨c, hc, hholds⟩ := hls
    obtain ⟨i, hi', -⟩ := hfn c hc hholds
    exact ⟨i, hi'⟩
  · intro _
    refine ⟨j, hu.1, fun hme => ?_⟩
    exact (hi.nodup.mem_erase_iff.1 hme).1 rfl

theorem last (hit : it ∈ s.pool.items) (hu : it.InUse p z s.live j)
    (hlst : ∀ c ∈ s.live.erase (it.block p z j), ¬ it.Holds c) (tree : List Nat)
    (hs : s.pool.space.mmFreePoolBig p it.page = some space) :
    Inv p z ⟨⟨space, s.pool.items.filter fun o => o.page != it.page, tree⟩,
        s.live.erase (it.block p z j)⟩ ∧
      ∀ f, Used space.entries f → f.page + 1 ≠ it.page := by
  have hok := hi.item it hit
  obtain ⟨e, hw, hp, -, hus⟩ := hok.region
  rw [← hp] at hs
  have hls := freeBig_loses hi.listed hw hus hs
  constructor
  · refine hi.remove hit hls.listed ?_ ?_ hlst (hi.nodup.erase _)
    · intro f hf hne
      refine hls.owned f hf ?_
      rintro rfl
      exact hne hp
    · intro b hb
      rw [hi.nodup.mem_erase_iff]
      refine and_iff_right ?_
      rintro rfl
      exact hb (holds_block hok.sizeClass hu.2.1)
  · intro f hf heq
    obtain ⟨hf, hne⟩ := (hls.used f).1 hf
    exact hne (hi.listed.order.eq_of_page hf.1 hw.used.1 (by omega))

theorem itemAt_page (hit : it ∈ s.pool.items) : s.pool.itemAt it.page = some it := by
  have hsm : (s.pool.items.find? fun o => o.page == it.page).isSome = true :=
    List.find?_isSome.2 ⟨it, hit, beq_self_eq_true _⟩
  obtain ⟨jt, hj⟩ := isSome_iff_exists.1 hsm
  have hp : jt.page = it.page := by simpa using List.find?_some hj
  obtain rfl := hi.eq_of_page (mem_of_find?_eq_some hj) hit hp
  exact hj

theorem step_free (hit : it ∈ s.pool.items) : s.step p z (.free it.page b) =
      (s.pool.mmpSlabContainerFree p z it b.address).map fun pool => ⟨pool, s.live.erase b⟩ := by
  rw [SlabSystem.step, hi.itemAt_page hit, bind_some]

/-- The step lemma for `MmpSlabContainerFree`, with what becomes of the item. -/
theorem free (hit : it ∈ s.pool.items) (hb : b ∈ s.live) (hholds : it.Holds b)
    (hs : s.step p z (.free it.page b) = some s') :
    Inv p z s' ∧
      ((∀ c ∈ s'.live, ¬ it.Holds c) ∧ (∀ jt ∈ s'.pool.items, jt.page ≠ it.page) ∧
          (∀ e, Used s'.pool.space.entries e → e.page + 1 ≠ it.page) ∨
        (∃ c ∈ s'.live, it.Holds c) ∧ (∃ jt ∈ s'.pool.items, jt.page = it.page) ∧
          ∃ e, Used s'.pool.space.entries e ∧ e.page + 1 = it.page) := by
  obtain ⟨j, hu, rfl⟩ := hi.block_of_holds hit hb hholds
  rw [hi.step_free hit] at hs
  rcases hi.containerFree hit hu with ⟨hnn, hfr⟩ | ⟨hmr, hfr⟩
  · rw [hfr] at hs
    obtain ⟨pool, hpl, rfl⟩ := map_eq_some_iff.1 hs
    obtain ⟨space, hsp, rfl⟩ := map_eq_some_iff.1 hpl
    obtain ⟨hin, hgn⟩ := hi.last hit hu hnn _ hsp
    refine ⟨hin, .inl ⟨hnn, fun jt hj => ?_, hgn⟩⟩
    simpa using (mem_filter.1 hj).2
  · rw [hfr] at hs
    cases hs
    refine ⟨hi.drop hit hu hmr, .inr ⟨hmr, ?_, ?_⟩⟩
    · exact ⟨dropped p it j, List.mem_map.2 ⟨it, hit, if_pos rfl⟩, rfl⟩
    · obtain ⟨e, hw, hp, -⟩ := (hi.item it hit).region
      exact ⟨e, hw.used, hp⟩

/-- The step lemma. -/
theorem step {a : SlabAction} (hp : Promised p s a) (hw : FewBlocks p z s a)
    (hs : s.step p z a = some s') : Inv p z s' := by
  cases a with
  | allocate u np k =>
    obtain ⟨r, hr, rfl⟩ := map_eq_some_iff.1 hs
    exact hi.allocate hp.1 hp.2 hw hr
  | free page b =>
    obtain ⟨hb, it, hit, rfl, hholds⟩ := hp
    exact (hi.free hit hb hholds hs).1
  | other a =>
    obtain ⟨space, hsp, rfl⟩ := map_eq_some_iff.1 hs
    cases a with
    | reserve u n tag ud =>
      obtain ⟨⟨space', r⟩, hrs, rfl⟩ := map_eq_some_iff.1 hsp
      obtain ⟨hlv, -⟩ := reserve_leaves hi.listed hp.2 hp.1 hrs
      exact hi.setSpace hlv.listed fun _ _ e he _ => hlv.owned e he
    | free handle =>
      obtain ⟨e, he, rfl, hnt⟩ := hp
      have hls := free_loses hi.listed he hsp
      refine hi.setSpace hls.listed fun it hit f hf hpg => hls.owned f hf ?_
      rintro rfl
      exact hnt it hit hpg
    | map page x =>
      cases hsp
      refine hi.setSpace (hi.listed.congr rfl rfl) fun it hit e he hpg => ?_
      refine he.congr he.used ?_
      by_cases heq : e.page = page
      · rcases hp with rfl | hnt
        · exact .inr (by rw [heq]; exact Function.update_self ..)
        · exact absurd (heq ▸ hpg) (hnt it hit)
      · exact .inl (Function.update_of_ne heq ..)

end

/-- There are no items at the start. -/
theorem init {frame : Nat} (hfr : frame < 0x100000000) (hs : miInitPool p frame = some space) :
    Inv p z ⟨⟨space, [], []⟩, []⟩ where
  listed :=
    have hok := (init_inv hfr hs).ok
    ⟨hok.order, hok.held⟩
  item := nofun
  pages := nodup_nil
  apart := nofun
  live := nofun
  nodup := nodup_nil

/-! ## What the invariant gives -/

theorem blocks_apart {c : SlabBlock} (hi : Inv p z s) (hb : b ∈ s.live) (hc : c ∈ s.live)
    (hne : b ≠ c) :
    b.address + z.size b.sizeClass ≤ c.address ∨ c.address + z.size c.sizeClass ≤ b.address := by
  obtain ⟨it, hit, i, hi', rfl⟩ := hi.live b hb
  obtain ⟨jt, hjt, j, hj, rfl⟩ := hi.live c hc
  by_cases hp : it.page = jt.page
  · obtain rfl := hi.eq_of_page hit hjt hp
    simp only [block, slotAddress, Nat.mul_zero, Nat.zero_add]
    rcases Nat.lt_trichotomy i j with hlt | rfl | hlt
    · have hml := Nat.mul_le_mul_right (z.size it.sizeClass) (Nat.succ_le_of_lt hlt)
      rw [Nat.succ_mul] at hml
      omega
    · exact absurd rfl hne
    · have hml := Nat.mul_le_mul_right (z.size it.sizeClass) (Nat.succ_le_of_lt hlt)
      rw [Nat.succ_mul] at hml
      omega
  · obtain ⟨hlo, hh⟩ := block_bounds (p := p) (z := z) (hi.item it hit).sizeClass hi'.2.1
    obtain ⟨hlo', hh'⟩ := block_bounds (p := p) (z := z) (hi.item jt hjt).sizeClass hj.2.1
    rcases hi.apart it hit jt hjt hp with h | h
    · exact .inl (by simp only [block] at *; omega)
    · exact .inr (by simp only [block] at *; omega)

theorem exists_spare (hi : Inv p z s) (hit : it ∈ s.pool.items)
    (hlt : (it.liveIn s.live).length < it.capacity p z) :
    ∃ j < 32, j < it.capacity p z ∧ it.block p z j ∉ s.live := by
  have hok := hi.item it hit
  by_cases hlr : 32 < it.capacity p z
  · obtain ⟨j, hj, hnt⟩ := hok.spare hlr
    exact ⟨j, hj, by omega, hnt⟩
  · obtain ⟨j, hj, hnt⟩ := exists_free hok.sizeClass le_rfl hlt
    exact ⟨j, by omega, hj, hnt⟩

theorem blocksRight (hi : Inv p z s) : BlocksRight p z s where
  apart := hi.nodup.pairwise_of_forall_ne fun b hb c hc hne => hi.blocks_apart hb hc hne
  inside b hb := by
    obtain ⟨it, hit, j, hj, rfl⟩ := hi.live b hb
    exact ⟨it, hit, rfl, block_bounds (hi.item it hit).sizeClass hj.2.1⟩
  room it hit hlt := by
    obtain ⟨j, hj, hp, hfr⟩ := hi.exists_spare hit hlt
    obtain ⟨k, -, -, -, -, htr⟩ := (hi.item it hit).tryAllocate hj hp hfr
    exact ⟨_, _, htr⟩
  shifts it hit n hn := by
    have hok := hi.item it hit
    rcases hok.free_or_full with ⟨j, hj, hp, hfr⟩ | ⟨hle, hfl⟩
    · obtain ⟨k, hk, -, -, hh, -⟩ := hok.tryAllocate hj hp hfr
      rw [hh, mem_range] at hn
      omega
    · rw [(hok.tracks.tryAllocate_none hle hfl).1, mem_range] at hn
      exact hn.trans_le hle
  freeShifts it hit b hb hholds := by
    obtain ⟨j, hj, rfl⟩ := hi.block_of_holds hit hb hholds
    have hlt := hj.1
    simp only [block, slotAddress, Nat.mul_zero, Nat.zero_add, Nat.add_sub_cancel_left]
    rw [Nat.mul_div_cancel _ (size_pos (hi.item it hit).sizeClass)]
    omega
  inUse it hit := by
    obtain ⟨j, hj⟩ := (hi.item it hit).inUse
    exact ⟨_, hj.2.2, holds_block (hi.item it hit).sizeClass hj.2.1⟩
  regions it hit := by
    obtain ⟨e, hw, hpg, hsize, -⟩ := (hi.item it hit).region
    exact ⟨e, hw.used, hpg, hsize⟩

theorem free_returns (hi : Inv p z s) (hit : it ∈ s.pool.items)
    (hfn : s.pool.space.miGetPoolSpaceHandleFromAddress p it.page ≠ none) :
    ∃ space, s.pool.space.mmFreePoolBig p it.page = some space := by
  obtain ⟨e, hw, hp, -, hu⟩ := (hi.item it hit).region
  rw [← hp] at hfn ⊢
  unfold miGetPoolSpaceHandleFromAddress at hfn
  by_cases hc : s.pool.space.spaceLocked = true
  · rw [if_pos hc] at hfn
    exact absurd rfl hfn
  · rw [if_neg hc, Nat.add_sub_cancel] at hfn
    rcases hw.page with hh | hz
    · exact freeBig_returns hi.listed hw.used (by simpa using hc) hh hu
    · have hnn : p.mmIsPoolHeaderPte 0 = false := by cases p <;> decide
      rw [hz, PoolPte.zero] at hfn
      dsimp only at hfn
      rw [hnn] at hfn
      exact absurd rfl hfn

theorem freesRight (hi : Inv p z s) : FreesRight p z s := by
  intro it hit b hb hholds
  constructor
  · intro s' hs
    rcases (hi.free hit hb hholds hs).2 with ⟨hnn, him, hrg⟩ |
      ⟨⟨c, hc, hh⟩, ⟨jt, hj, hpg⟩, e, he, hp⟩
    · exact ⟨iff_of_true him hnn, iff_of_true hrg hnn⟩
    · have hsm : ¬ ∀ c ∈ s'.live, ¬ it.Holds c := fun h => h c hc hh
      exact ⟨iff_of_false (fun h => h jt hj hpg) hsm,
        iff_of_false (fun h => h e he hp) hsm⟩
  · intro hfn
    obtain ⟨j, hu, rfl⟩ := hi.block_of_holds hit hb hholds
    rw [hi.step_free hit, isSome_map]
    rcases hi.containerFree hit hu with ⟨-, hfr⟩ | ⟨-, hfr⟩
    · obtain ⟨space, hsp⟩ := hi.free_returns hit hfn
      rw [hfr, hsp]
      rfl
    · rw [hfr]
      rfl

end Inv

/-! ## Every run -/

instance (a : SlabAction) : Decidable (FewBlocks p z s a) :=
  match a with
  | .allocate _ nonPaged sizeClass =>
    inferInstanceAs (Decidable (∀ it ∈ s.pool.items, it.nonPaged = nonPaged →
      it.sizeClass = sizeClass → 32 < it.capacity p z → (it.liveIn s.live).length < 31))
  | .free .. => inferInstanceAs (Decidable True)
  | .other _ => inferInstanceAs (Decidable True)

/-- An executable test of what is promised, where nobody else uses the pool. -/
def promisedTest (s : SlabSystem) : SlabAction → Bool
  | .allocate u _ sizeClass => decide (sizeClass < slabSizeCount) && u.headerFrame == none
  | .free page b =>
    decide (b ∈ s.live) && s.pool.items.any fun it => it.page == page && decide (it.Holds b)
  | .other _ => false

theorem promised_of_promisedTest {a : SlabAction} (h : promisedTest s a = true) : Promised p s a := by
  cases a with
  | allocate u np sc =>
    simp only [promisedTest, Bool.and_eq_true, decide_eq_true_eq, beq_iff_eq] at h
    refine ⟨h.1, fun _ pfn hp => ?_⟩
    rw [h.2] at hp
    cases hp
  | free page b =>
    simp only [promisedTest, Bool.and_eq_true, decide_eq_true_eq, List.any_eq_true, beq_iff_eq] at h
    obtain ⟨hb, it, hit, hpg, hholds⟩ := h
    exact ⟨hb, it, hit, hpg, hholds⟩
  | other a => cases h

/-- Sizes of threads and processes. -/
def blockSizes : SlabSizes :=
  ⟨1024, 512, Nat.le_add_right 16 1008, Nat.le_add_right 1024 31744, Nat.le_add_right 16 496,
    Nat.le_add_right 512 32256⟩

end Boron.Mm.SlabSystem
