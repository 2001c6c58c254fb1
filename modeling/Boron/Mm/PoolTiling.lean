import Boron.Mm.PoolRegions

/-! # The pool is tiled by its regions

The pool starts as one free region for each of its arenas. From there on regions are reserved and
freed, and their owners map pages into them. In every state that is reached the regions tile the
arenas, no two free ones are neighbours, and a region in use is found from its address
(`PoolSpace.pool_tiled`), as long as there is a page table for the first page of every region that is
reserved. -/

namespace Boron.Mm

open List Option

/-! ## Arenas -/

/-- The first page and the number of pages of each arena. -/
def arenas : Port → List (Nat × Nat)
  | .amd64 => [(0xFFFFA08000000, 0x8000000)]
  | .i386 => [(0x80000, 0x40000), (0xE0000, 0x10000)]
  | .arm => [(0x80000, 0x40000), (0xE0000, 0x10000)]

/-- The page belongs to an arena. -/
def InArena (p : Port) (q : Nat) : Prop := ∃ a ∈ arenas p, a.1 ≤ q ∧ q < a.1 + a.2

/-- No arena begins where another one ends. -/
theorem arenas_apart (p : Port) : ∀ a ∈ arenas p, ∀ b ∈ arenas p, b.1 ≤ a.1 + a.2 →
    a.1 + a.2 < b.1 + b.2 → False := by
  cases p <;> decide

/-- A run of pages of the arenas lies in one of them. -/
theorem exists_arena {p : Port} {page n : Nat} (h : ∀ q, page ≤ q → q < page + (n + 1) → InArena p q) :
    ∃ a ∈ arenas p, a.1 ≤ page ∧ page + (n + 1) ≤ a.1 + a.2 := by
  induction n with
  | zero =>
    obtain ⟨a, ha, hlo, hh⟩ := h page le_rfl (by omega)
    exact ⟨a, ha, hlo, hh⟩
  | succ n ih =>
    obtain ⟨a, ha, hlo, hh⟩ := ih fun q h1 h2 => h q h1 (by omega)
    obtain ⟨b, hb, hlo', hh'⟩ := h (page + (n + 1)) (by omega) (by omega)
    refine ⟨a, ha, hlo, ?_⟩
    by_contra he
    -- the last page would be the first of another arena
    exact arenas_apart p a ha b hb (by omega) (by omega)

namespace PoolSpace

/-! ## Runs -/

/-- The entries that `MiInitPool` makes, one for each arena. -/
def initEntries (p : Port) (frame : Option Nat) :
    List (Nat × Nat) → PoolHeaders → Option (PoolHeaders × List PoolEntry)
  | [], h => some (h, [])
  | (page, size) :: rest, h =>
    (h.miCreatePoolEntry p frame).bind fun (h, handle) =>
      (initEntries p frame rest h).map fun (h, entries) =>
        (h, ⟨handle, page, size, false, miEmptyTag, 0⟩ :: entries)

/-- `MiInitPool`, given the frame of the first page of headers. -/
def miInitPool (p : Port) (frame : Nat) : Option PoolSpace :=
  (initEntries p (some frame) (arenas p) ⟨[], fun _ => false⟩).map fun (headers, entries) =>
    ⟨entries, headers, fun _ => .zero, fun _ => 0, false⟩

inductive Action
  | reserve (supply : PoolSupply) (sizeInPages tag userData : Nat)
  | free (handle : Nat)
  | map (page : Nat) (entry : PoolPte)

def step (p : Port) (s : PoolSpace) : Action → Option PoolSpace
  | .reserve u n tag userData => (s.miReservePoolSpaceTagged p u n tag userData).map Prod.fst
  | .free handle => s.miFreePoolSpace p handle
  | .map page x => some (s.setPte page x)

/-- What callers do, and what memory must not do: a reservation finds a page table for its first page
and its size has a successor, a region is freed by its owner after its pages are unmapped, and pages
are mapped into regions by their owners. -/
def Calm (p : Port) (s : PoolSpace) : Action → Prop
  | .reserve u n _ _ =>
    n + 1 < p.addresses ∧ u.pteRoom = true ∧ s.headers.Fresh p u.headerFrame
  | .free handle =>
    ∃ e, Used s.entries e ∧ e.handle = handle ∧
      ∀ q, e.page < q → q < e.page + e.size → s.pte q = .zero
  | .map page _ => ∃ e, Used s.entries e ∧ e.page < page ∧ page < e.page + e.size

/-- The regions tile the arenas, free ones are joined, and regions in use are found. -/
structure Tiled (p : Port) (s : PoolSpace) : Prop where
  order : InOrder s.entries
  covers : ∀ q, Covered s.entries q ↔ InArena p q
  inside : ∀ e ∈ s.entries, ∃ a ∈ arenas p, a.1 ≤ e.page ∧ e.page + e.size ≤ a.1 + a.2
  joined : ∀ e ∈ s.entries, ∀ f ∈ s.entries, e.allocated = false → f.allocated = false →
    f.page ≠ e.page + e.size
  named : ∀ e, Used s.entries e →
    s.pte e.page = .header p e.handle ∧ s.miGetPoolSpaceHandleFromAddress p (e.page + 1) = some e.handle
  unlocked : s.spaceLocked = false

/-- What holds in every state of a run. -/
structure Inv (p : Port) (s : PoolSpace) : Prop where
  ok : Ok p s
  covers : ∀ q, Covered s.entries q ↔ InArena p q
  maximal : Maximal s.entries

variable {p : Port} {s s' : PoolSpace} {e : PoolEntry} {a : Action}

theorem Inv.tiled (h : Inv p s) : Tiled p s where
  order := h.ok.order
  covers := h.covers
  inside e he := by
    have hpos := h.ok.order.pos e he
    obtain ⟨n, hn⟩ : ∃ n, e.size = n + 1 := ⟨e.size - 1, by omega⟩
    rw [hn]
    exact exists_arena fun q hlo hh => (h.covers q).1 ⟨e, he, hlo, hn ▸ hh⟩
  joined e he f hf hef hfr hp := by
    refine h.maximal e he hef ⟨f, hf, hfr, ?_⟩
    rw [← hp]
    exact h.ok.order.covers_page hf
  named e he := ⟨h.ok.header e he, handle_of_address h.ok he⟩
  unlocked := h.ok.unlocked

theorem Inv.reserved (h : Inv p s) (hr : Reserved p s s' e) : Inv p s' where
  ok := hr.ok h.ok
  covers q := hr.entries.covered.trans (h.covers q)
  maximal := hr.entries.maximal h.maximal

theorem Inv.freed (h : Inv p s) (he : Used s.entries e) (hf : Freed p s s' e)
    (hz : ∀ q, e.page < q → q < e.page + e.size → s.pte q = .zero) : Inv p s' where
  ok := hf.ok h.ok he hz
  covers q := (hf.entries.covered he).trans (h.covers q)
  maximal := hf.entries.maximal h.maximal

/-- A page that its owner maps is neither free nor the first of a region. -/
theorem Inv.mapped (h : Inv p s) (he : Used s.entries e) {page : Nat} (hlo : e.page < page)
    (hh : page < e.page + e.size) (x : PoolPte) : Inv p (s.setPte page x) where
  ok := by
    refine ⟨h.ok.order, h.ok.held, fun q hq => ?_, fun f hf => ?_, h.ok.unlocked⟩
    · refine (Function.update_of_ne ?_ _ _).trans (h.ok.free q hq)
      rintro rfl
      exact h.ok.order.not_freePage he ⟨hlo.le, hh⟩ hq
    · refine (Function.update_of_ne ?_ _ _).trans (h.ok.header f hf)
      rintro rfl
      obtain rfl := h.ok.order.eq_of_covers he.1 hf.1 ⟨hlo.le, hh⟩ (h.ok.order.covers_page hf.1)
      exact lt_irrefl _ hlo
  covers := h.covers
  maximal := h.maximal

/-- The step lemma. -/
theorem Inv.step (h : Inv p s) (hc : Calm p s a) (hs : s.step p a = some s') : Inv p s' := by
  cases a with
  | reserve u n tag ud =>
    obtain ⟨hn, hrm, hfr⟩ := hc
    obtain ⟨s₁, r, hr, hcs⟩ := reserveSpace tag ud h.ok hrm hfr hn
    rw [PoolSpace.step, hr] at hs
    cases hs
    rcases hcs with ⟨-, rfl, -⟩ | ⟨e, -, hrs, -⟩
    · exact h
    · exact h.reserved hrs
  | free handle =>
    obtain ⟨e, he, rfl, hz⟩ := hc
    obtain ⟨s₁, hs₁, hfreed⟩ := freeSpace h.ok.order h.ok.held he (h.ok.header e he) h.ok.unlocked
    cases hs.symm.trans hs₁
    exact h.freed he hfreed hz
  | map page x =>
    obtain ⟨e, he, hlo, hh⟩ := hc
    cases hs
    exact h.mapped he hlo hh x

/-! ## The start -/

section

variable {frame : Option Nat} {as : List (Nat × Nat)} {h h' : PoolHeaders} {es : List PoolEntry}

/-- There is one free region for each arena. -/
theorem initEntries_shape (hs : initEntries p frame as h = some (h', es)) :
    es.map (fun e => (e.page, e.size)) = as ∧ ∀ e ∈ es, e.allocated = false := by
  induction as generalizing h es with
  | nil =>
    cases hs
    exact ⟨rfl, nofun⟩
  | cons a as ih =>
    obtain ⟨page, size⟩ := a
    obtain ⟨⟨h₁, handle⟩, -, hs⟩ := bind_eq_some_iff.1 hs
    obtain ⟨⟨h₂, rest⟩, hrs, heq⟩ := map_eq_some_iff.1 hs
    cases heq
    obtain ⟨hp, hfr⟩ := ih hrs
    refine ⟨by rw [map_cons, hp], fun e he => ?_⟩
    rcases mem_cons.1 he with rfl | he
    · rfl
    · exact hfr e he

/-- Their entries come from the headers. Only the first one may need a page for them. -/
theorem initEntries_held {hs : List Nat} (hh : Held p h hs)
    (hfr : p = .amd64 → as.length ≤ 1 ∧ (as ≠ [] → h.Fresh p frame))
    (hi : initEntries p frame as h = some (h', es)) : Held p h' (handles es ++ hs) := by
  induction as generalizing h es hs with
  | nil =>
    cases hi
    exact hh
  | cons a as ih =>
    obtain ⟨page, size⟩ := a
    obtain ⟨⟨h₁, handle⟩, hc, hi⟩ := bind_eq_some_iff.1 hi
    obtain ⟨⟨h₂, rest⟩, hrs, heq⟩ := map_eq_some_iff.1 hi
    cases heq
    have hfm : h.Fresh p frame := fun hp => (hfr hp).2 (cons_ne_nil _ _) hp
    refine (ih (hh.create hfm hc) (fun hp => ?_) hrs).perm perm_middle
    have hnil : as = [] := by simpa using (hfr hp).1
    exact ⟨by simp [hnil], fun hne => absurd hnil hne⟩

theorem init_inv {frame : Nat} (hfm : frame < 0x100000000) (hs : miInitPool p frame = some s) :
    Inv p s := by
  obtain ⟨⟨headers, es⟩, hes, rfl⟩ := map_eq_some_iff.1 hs
  obtain ⟨hmp, hfr⟩ := initEntries_shape hes
  have hme : ∀ e ∈ es, (e.page, e.size) ∈ arenas p := fun e he =>
    hmp ▸ List.mem_map.2 ⟨e, he, rfl⟩
  have hh : Held p headers (handles es) := by
    have hnn : Held p ⟨[], fun _ => false⟩ [] :=
      ⟨⟨nodup_nil, nofun, fun _ => nofun⟩, nodup_nil, fun a => by simp [PoolHeaders.Taken, TakenIn]⟩
    have hfs : p = .amd64 → (arenas p).length ≤ 1 ∧
        (arenas p ≠ [] → PoolHeaders.Fresh p ⟨[], fun _ => false⟩ (some frame)) := by
      rintro rfl
      refine ⟨by decide, fun _ _ pfn hp => ⟨?_, fun slab hsl => absurd hsl not_mem_nil⟩⟩
      cases hp
      exact hfm
    simpa using initEntries_held hnn hfs hes
  have hor : InOrder es := by
    have hpr : (arenas p).Pairwise (fun a b => a.1 + a.2 ≤ b.1) ∧ ∀ a ∈ arenas p, 0 < a.2 := by
      cases p <;> decide
    rw [← hmp, pairwise_map] at hpr
    exact ⟨hpr.1, fun e he => hpr.2 _ (List.mem_map.2 ⟨e, he, rfl⟩)⟩
  refine ⟨⟨hor, hh, fun _ _ => rfl, fun e he => ?_, rfl⟩, fun q => ?_, fun e he ha hq => ?_⟩
  · have := hfr e he.1
    rw [he.2] at this
    cases this
  · rw [InArena, ← hmp]
    simp only [List.mem_map, exists_exists_and_eq_and]
    exact Iff.rfl
  · obtain ⟨f, hf, -, hlo, hhi⟩ := hq
    exact arenas_apart p _ (hme e he) _ (hme f hf) hlo hhi

end

/-! ## Every run -/

/-- **The pool stays tiled**, and its calls do what they say: a reservation that fails changes nothing,
one that succeeds returns the handle and the pages of a region that was free, and the region of a
handle can be freed. -/
theorem pool_tiled (p : Port) (frame : Nat) (hframe : frame < 0x100000000) (s₀ s : PoolSpace)
    (hstart : miInitPool p frame = some s₀) (hr : Reaches (step p) (Calm p) s₀ s) :
    Tiled p s ∧ (∀ u n tag userData, Calm p s (.reserve u n tag userData) →
        ∃ s' r, s.miReservePoolSpaceTagged p u n tag userData = some (s', r) ∧ Tiled p s' ∧
          (r = none ∧ s' = s ∨
            ∃ e, r = some (e.handle, e.page + 1) ∧ Used s'.entries e ∧ e.size = n + 1 ∧
              (∀ q, e.Covers q → FreePage s.entries q) ∧
              ∀ f, Used s'.entries f ↔ Used s.entries f ∨ f = e)) ∧
      ∀ e, Used s.entries e → Calm p s (.free e.handle) →
        ∃ s', s.miFreePoolSpace p e.handle = some s' ∧ Tiled p s' ∧
          ∀ f, Used s'.entries f ↔ Used s.entries f ∧ f ≠ e := by
  have hin : Inv p s := hr.invariant (I := Inv p) (init_inv hframe hstart)
    fun _ _ _ hi hc hs => hi.step hc hs
  refine ⟨hin.tiled, fun u n tag userData hc => ?_, fun e he hc => ?_⟩
  · obtain ⟨hn, hrm, hfr⟩ := hc
    obtain ⟨s', r, hre, hcs⟩ := reserveSpace tag userData hin.ok hrm hfr hn
    refine ⟨s', r, hre, ?_⟩
    rcases hcs with ⟨rfl, rfl, -⟩ | ⟨e, rfl, hrs, hsize, -⟩
    · exact ⟨hin.tiled, .inl ⟨rfl, rfl⟩⟩
    · exact ⟨(hin.reserved hrs).tiled, .inr ⟨e, rfl, hrs.entries.mem, hsize,
        hrs.entries.was, hrs.entries.used⟩⟩
  · obtain ⟨f, hf, heq, hz⟩ := hc
    obtain rfl := eq_of_handle hin.ok.held.nodup hf.1 he.1 heq
    obtain ⟨s', hs', hfreed⟩ :=
      freeSpace hin.ok.order hin.ok.held he (hin.ok.header f he) hin.ok.unlocked
    exact ⟨s', hs', (hin.freed he hfreed hz).tiled, hfreed.entries.used⟩

/-- An executable test of what callers do, for frames that are never needed. -/
def calmTest (p : Port) (s : PoolSpace) : Action → Bool
  | .reserve u n _ _ => decide (n + 1 < p.addresses) && u.pteRoom && u.headerFrame == none
  | .free handle =>
    s.entries.any fun e => e.allocated && e.handle == handle &&
      (List.range (e.size - 1)).all fun i => s.pte (e.page + 1 + i) == .zero
  | .map page _ => s.entries.any fun e => e.allocated && decide (e.page < page ∧ page < e.page + e.size)

theorem calm_of_calmTest (h : calmTest p s a = true) : Calm p s a := by
  cases a with
  | reserve u n tag ud =>
    simp only [calmTest, Bool.and_eq_true, decide_eq_true_eq, beq_iff_eq] at h
    refine ⟨h.1.1, h.1.2, fun _ pfn hp => ?_⟩
    rw [h.2] at hp
    cases hp
  | free handle =>
    simp only [calmTest, List.any_eq_true, Bool.and_eq_true, List.all_eq_true, beq_iff_eq,
      mem_range] at h
    obtain ⟨e, he, ⟨ha, hh⟩, hz⟩ := h
    refine ⟨e, ⟨he, ha⟩, hh, fun q hlo hhi => ?_⟩
    have := hz (q - (e.page + 1)) (by omega)
    rwa [show e.page + 1 + (q - (e.page + 1)) = q by omega] at this
  | map page x =>
    simp only [calmTest, List.any_eq_true, Bool.and_eq_true, decide_eq_true_eq] at h
    obtain ⟨e, he, ha, hrn⟩ := h
    exact ⟨e, ⟨he, ha⟩, hrn⟩

/-- Two regions are reserved, and the first one is freed again. -/
theorem pool_tiled_sample :
    ∃ s₀ s : PoolSpace, miInitPool .i386 7 = some s₀ ∧ Reaches (step .i386) (Calm .i386) s₀ s ∧
      s.entries.map (fun e => (e.page, e.size, e.allocated)) =
        [(0x80000, 4, false), (0x80004, 6, true), (0x8000A, 0x3FFF6, false), (0xE0000, 0x10000, false)] ∧
      Tiled .i386 s := by
  obtain ⟨s, hs, he⟩ := (Option.any_eq_true
    (fun s : PoolSpace => s.entries.map (fun e => (e.page, e.size, e.allocated)) ==
      [(0x80000, 4, false), (0x80004, 6, true), (0x8000A, 0x3FFF6, false), (0xE0000, 0x10000, false)])
    ((miInitPool .i386 7).bind (runChecked (step .i386) (calmTest .i386)
      [.reserve ⟨none, true, 0⟩ 3 1 0, .reserve ⟨none, true, 0⟩ 5 1 0, .free 0xD1000000]))).1
    (by decide +kernel)
  obtain ⟨s₀, hst, hrn⟩ := bind_eq_some_iff.1 hs
  have hc : Reaches (step .i386) (Calm .i386) s₀ s :=
    .of_runChecked (fun _ _ h => calm_of_calmTest h) hrn
  exact ⟨s₀, s, hst, hc, by simpa using he, (pool_tiled .i386 7 (by decide) s₀ s hst hc).1⟩

/-! ## First fit -/

/-- `n` free pages in a row. -/
def FreeRun (l : List PoolEntry) (n q : Nat) : Prop := ∀ i < n, FreePage l (q + i)

/-- The region found begins with the lowest such pages; if there is none, there are no such pages. -/
def LowestRun (l : List PoolEntry) (n : Nat) : Option PoolEntry → Prop
  | none => ∀ q, ¬ FreeRun l n q
  | some e => FreeRun l n e.page ∧ ∀ q, FreeRun l n q → e.page ≤ q

/-- First fit passes over an entry with no run at its start. -/
theorem sub_lowest (hd : PoolHeaders) {created : Option (PoolHeaders × Nat)} {n : Nat}
    (tag userData : Nat) {l : List PoolEntry} (hl : InOrder l) (hm : Maximal l)
    (hc : created.isSome = true) (hn : 0 < n) :
    LowestRun l n ((miReservePoolSpaceTaggedSub hd created n tag userData l).map (·.2.2)) := by
  induction l with
  | nil =>
    intro q h
    obtain ⟨e, he, -⟩ := h 0 hn
    cases he
  | cons x l ih =>
    obtain ⟨-, -, hl'⟩ := inOrder_cons.1 hl
    obtain ⟨hx, hm'⟩ := (maximal_cons hl).1 hm
    -- no run begins before the first region
    have hge : ∀ q, FreeRun (x :: l) n q → x.page ≤ q := by
      intro q h
      rcases freePage_cons.1 (h 0 hn) with ⟨-, hq⟩ | hq
      · exact hq.1
      · have := hl.le_of_freePage hq
        omega
    rw [miReservePoolSpaceTaggedSub]
    split
    · next hs =>
        have hrun : ∀ q, FreeRun (x :: l) n q ↔ FreeRun l n q := by
          refine fun q => ⟨fun h i hi => ?_, fun h i hi => freePage_cons.2 (.inr (h i hi))⟩
          rcases freePage_cons.1 (h i hi) with ⟨ha, -, hlt⟩ | hq
          · -- the run would go on past the short region
            have hq := hge q h
            rw [ha, Bool.false_or, decide_eq_true_eq] at hs
            have hend := h (x.page + x.size - q) (by omega)
            rw [show q + (x.page + x.size - q) = x.page + x.size by omega] at hend
            rcases freePage_cons.1 hend with ⟨-, -, hlt'⟩ | hend
            · omega
            · exact absurd hend (hx ha)
          · exact hq
        have hsub := ih hl' hm'
        cases hr : miReservePoolSpaceTaggedSub hd created n tag userData l <;>
          simpa [hr, LowestRun, hrun] using hsub
    · next hs =>
        simp only [Bool.or_eq_true, decide_eq_true_eq, not_or, Bool.not_eq_true, not_lt] at hs
        have hrun : FreeRun (x :: l) n x.page := fun i hi =>
          freePage_cons.2 (.inl ⟨hs.1, Nat.le_add_right _ _, by omega⟩)
        obtain ⟨c, rfl⟩ := Option.isSome_iff_exists.1 hc
        rw [mmpSplitEntry]
        split <;> exact ⟨hrun, hge⟩

/-- **Reserving pool space is first fit, and complete**: in every state of a run, with room for a list
entry, a reservation takes the lowest pages that are free and in a row, one for the header and those
asked for, and fails only if there are none. -/
theorem reserve_lowest (p : Port) (frame : Nat) (hframe : frame < 0x100000000) (s₀ s : PoolSpace)
    (hstart : miInitPool p frame = some s₀) (hr : Reaches (step p) (Calm p) s₀ s)
    (u : PoolSupply) (n tag userData : Nat) (hc : Calm p s (.reserve u n tag userData))
    (hroom : (s.headers.miCreatePoolEntry p u.headerFrame).isSome = true) :
    ∃ s' found, s.miReservePoolSpaceTagged p u n tag userData =
        some (s', found.map fun e => (e.handle, e.page + 1)) ∧
      LowestRun s.entries (n + 1) found := by
  have hin : Inv p s := hr.invariant (I := Inv p) (init_inv hframe hstart)
    fun _ _ _ hi hc hs => hi.step hc hs
  obtain ⟨hn, hrm, -⟩ := hc
  have hlow := sub_lowest s.headers tag userData hin.ok.order hin.maximal hroom (Nat.succ_pos n)
  rw [miReservePoolSpaceTagged, show p.add n 1 = n + 1 from Nat.mod_eq_of_lt hn]
  cases h : miReservePoolSpaceTaggedSub s.headers (s.headers.miCreatePoolEntry p u.headerFrame) (n + 1)
      tag userData s.entries with
  | none =>
    rw [h] at hlow
    exact ⟨s, none, rfl, hlow⟩
  | some r =>
    rw [h] at hlow
    obtain ⟨hrs, -⟩ := reserves_sub hin.ok.order (Nat.succ_pos n) h
    have hz : s.pte r.2.2.page = .zero :=
      hin.ok.free _ (hrs.was _ (hrs.order.covers_page hrs.mem.1))
    simp only [hin.ok.unlocked, Bool.false_eq_true, if_false, hrm, if_true, hz]
    exact ⟨_, some r.2.2, rfl, hlow⟩

theorem reserve_lowest_sample : ∃ s s' : PoolSpace, ∃ found, miInitPool .i386 7 = some s ∧
    s.miReservePoolSpaceTagged .i386 ⟨none, true, 0⟩ 3 1 0 =
        some (s', found.map fun e => (e.handle, e.page + 1)) ∧
      LowestRun s.entries 4 found := by
  obtain ⟨s, hs, ht⟩ := (Option.any_eq_true
    (fun s : PoolSpace => (s.headers.miCreatePoolEntry .i386 none).isSome) (miInitPool .i386 7)).1
    (by decide +kernel)
  obtain ⟨s', found, h⟩ := reserve_lowest .i386 7 (by decide) s s hs .refl ⟨none, true, 0⟩ 3 1 0
    (calm_of_calmTest rfl) ht
  exact ⟨s, s', found, hs, h⟩

/-- Without a page table for the header the reservation fails and the lock is not released: no
reservation returns after that one. -/
theorem lock_not_released : ∃ s s' : PoolSpace, miInitPool .amd64 7 = some s ∧
      s.miReservePoolSpaceTagged .amd64 ⟨none, false, 0⟩ 4 0 0 = some (s', none) ∧
      s'.spaceLocked = true ∧
      s'.miReservePoolSpaceTagged .amd64 ⟨none, true, 0⟩ 4 0 0 = none := by
  obtain ⟨s, hsr, hts⟩ := (Option.any_eq_true
    (fun s : PoolSpace => (s.miReservePoolSpaceTagged .amd64 ⟨none, false, 0⟩ 4 0 0).any fun r =>
      r.2.isNone && r.1.spaceLocked &&
        (r.1.miReservePoolSpaceTagged .amd64 ⟨none, true, 0⟩ 4 0 0).isNone)
    (miInitPool .amd64 7)).1 (by decide +kernel)
  simp only [Option.any_eq_true, Bool.and_eq_true, isNone_iff_eq_none] at hts
  obtain ⟨⟨s', r⟩, hr, ⟨rfl, hlk⟩, hst⟩ := hts
  exact ⟨s, s', hsr, hr, hlk, hst⟩

end PoolSpace

end Boron.Mm
