import Boron.Mm.Sla

/-! # The sparse linear array is a map

An index is located at a level and an offset within it; the digits of the offset are the path of
pages below the level's root, and the rest of the offset is the entry within the last page
(`Boron.PageTree`). Pages linked on the way down read as `MM_SLA_NO_DATA` everywhere, so growing
the array changes no lookup; storing an entry changes the lookup of one index, since level, path
and rest determine the index. -/

namespace Boron.Mm.Sla

open Function Option

variable {w : Width}

/-! ## Pages -/

theorem Page.entry_filled (w : Width) (i : Nat) : Page.filled.entry w i = noData w := by
  cases w with
  | bits32 => rfl
  | bits64 => exact (by decide : BitVec.allOnes 32 ++ BitVec.allOnes 32 = BitVec.allOnes 64)

theorem Page.entry_setEntry_self (page : Page) (i : Nat) (value : Entry w) :
    (page.setEntry w i value).entry w i = value := by
  cases w with
  | bits32 => exact update_self i value page
  | bits64 =>
    have hne : 2 * i ≠ 2 * i + 1 := by omega
    simp only [entry, setEntry, update_self, update_of_ne hne]
    exact BitVec.extractLsb'_append_extractLsb'_eq_extractLsb' (by decide) |>.trans
      (BitVec.extractLsb'_eq_self (x := value))

theorem Page.entry_setEntry_of_ne (page : Page) {i j : Nat} (value : Entry w) (h : j ≠ i) :
    (page.setEntry w i value).entry w j = page.entry w j := by
  cases w with
  | bits32 => exact update_of_ne h value page
  | bits64 =>
    have h0 : 2 * j ≠ 2 * i := by omega
    have h1 : 2 * j ≠ 2 * i + 1 := by omega
    have h2 : 2 * j + 1 ≠ 2 * i := by omega
    have h3 : 2 * j + 1 ≠ 2 * i + 1 := by omega
    simp only [entry, setEntry, update_of_ne h0, update_of_ne h1, update_of_ne h2, update_of_ne h3]
    rfl

/-! ## Levels -/

/-- The number of indices that have a place: `64 + E * (1 + 1024 + 1024^2 + 1024^3)`. -/
def indexLimit (w : Width) : Nat :=
  directEntryCount + entriesPerPage w * (1 + 1024 + 1024 ^ 2 + 1024 ^ 3)

namespace State

/-- The level of an index past the direct entries, and the index within the level. -/
def locate (w : Width) (i : Nat) : Option (Nat × Nat) :=
  findLevel indirectLevels 0 (i - directEntryCount) (entriesPerPage w)

variable {n level L c : Nat}

theorem le_of_findLevel {now mo : Nat}
    (h : findLevel n level now mo = some (L, c)) : level ≤ L ∧ L < level + n := by
  induction n generalizing level now mo with
  | zero => simp [findLevel] at h
  | succ n ih =>
    rw [findLevel] at h
    split at h
    · have := ih h
      omega
    · cases h
      omega

/-- The level and the index within it determine the index. -/
theorem findLevel_inj {a b mo : Nat} (ha : findLevel n level a mo = some (L, c))
    (hb : findLevel n level b mo = some (L, c)) : a = b := by
  induction n generalizing level a b mo with
  | zero => simp [findLevel] at ha
  | succ n ih =>
    rw [findLevel] at ha hb
    split at ha <;> split at hb
    · have := ih ha hb
      omega
    · cases hb
      have := (le_of_findLevel ha).1
      omega
    · cases ha
      have := (le_of_findLevel hb).1
      omega
    · cases ha
      obtain ⟨_, rfl⟩ := Prod.mk.inj (some.inj hb)
      rfl

variable {i : Nat}

theorem locate_inj {j : Nat} {x : Nat × Nat} (hi : directEntryCount ≤ i)
    (hj : directEntryCount ≤ j) (h : locate w i = some x) (h' : locate w j = some x) : i = j := by
  have := findLevel_inj h h'
  omega

theorem level_lt_of_locate (h : locate w i = some (L, c)) : L < indirectLevels := by
  have := (le_of_findLevel h).2
  omega

/-- The pages of entries under the first `n` roots. -/
def leafPages : Nat → Nat
  | 0 => 0
  | n + 1 => 1 + pfnsPerPage * leafPages n

theorem findLevel_isSome (n level now mo : Nat) :
    (findLevel n level now mo).isSome ↔ now < mo * leafPages n := by
  induction n generalizing level now mo with
  | zero => simp [findLevel, leafPages]
  | succ n ih =>
    rw [findLevel, leafPages, Nat.mul_add, Nat.mul_one, ← Nat.mul_assoc]
    split
    · rw [ih]
      omega
    · simp only [isSome_some, true_iff]
      omega

theorem locate_isSome (hi : directEntryCount ≤ i) : (locate w i).isSome ↔ i < indexLimit w := by
  have hpages : leafPages indirectLevels = 1 + 1024 + 1024 ^ 2 + 1024 ^ 3 := by decide
  rw [locate, findLevel_isSome, hpages, indexLimit]
  omega

/-! ## The tree of pages -/

/-- The pages of the array as a tree: what is not `PFN_INVALID` is a link. -/
def tree (s : State w) : PageTree Nat Nat Mmpfn where
  root level :=
    if level < indirectLevels ∧ s.indirect level ≠ pfnInvalid then some (s.indirect level) else none
  child pfn d := if s.page pfn d = pfnInvalid then none else some (s.page pfn d)

/-- The page frame at the end of the path of `c` through its `n` lowest digits. -/
def pageAt (s : State w) (level n c : Nat) : Option Mmpfn :=
  s.tree.node level (digitPath pfnsPerPage n c)

theorem pageAt_succ (s : State w) (level n c : Nat) : s.pageAt level (n + 1) c
      = (s.pageAt level n c).bind (s.tree.child · (c / pfnsPerPage ^ n % pfnsPerPage)) := rfl

/-- The entry at an offset of a level. -/
def entryAt (s : State w) (level c : Nat) : Entry w :=
  (s.pageAt level level c).elim (noData w) fun pfn =>
    (s.page pfn).entry w (c / pfnsPerPage ^ level)

/-- What the array holds at an index. -/
def value (s : State w) (i : Nat) : Entry w :=
  if i < directEntryCount then s.direct i
  else match locate w i with
    | none => noData w
    | some (level, c) => s.entryAt level c

/-- Where the array holds an index. -/
def place (s : State w) (i : Nat) : Option Place :=
  if i < directEntryCount then some (.direct i)
  else (locate w i).bind fun x =>
    (s.pageAt x.1 x.1 x.2).map fun pfn => .page pfn (x.2 / pfnsPerPage ^ x.1)

/-- No page of the array is reached by two paths, and each is in use. -/
def Proper (s : State w) : Prop := s.tree.Proper id (· ∈ s.inUse)

theorem Proper.initialize (s : State w) : s.mmInitializeSla.Proper := by
  refine PageTree.Proper.empty fun level => ?_
  refine if_neg fun h => h.2 ?_
  exact if_pos h.1

variable {s : State w}

theorem root_of_missing (h : s.indirect level = pfnInvalid) :
    s.tree.root level = none := if_neg fun hr => hr.2 h

variable {pfn : Mmpfn} {d : Nat}

theorem child_of_missing (h : s.page pfn d = pfnInvalid) : s.tree.child pfn d = none := if_pos h

theorem child_of_present (h : s.page pfn d ≠ pfnInvalid) :
    s.tree.child pfn d = some (s.page pfn d) := if_neg h

variable {s' : State w}

/-- Pages with equal contents link to the same pages. -/
theorem child_congr (h : s'.page pfn = s.page pfn) : s'.tree.child pfn = s.tree.child pfn := by
  funext d
  simp only [tree, h]

/-! ## Growing -/

/-- `s'` has every page of `s` in its place, and the same entries. -/
structure Grows (s s' : State w) : Prop where
  proper : s'.Proper
  direct : s'.direct = s.direct
  entryAt : ∀ level c, s'.entryAt level c = s.entryAt level c
  node : ∀ {level : Nat} {up : List Nat} {pfn : Mmpfn}, up.length ≤ level →
    s.tree.node level up = some pfn → s'.tree.node level up = some pfn

theorem Grows.refl (hs : s.Proper) : s.Grows s :=
  ⟨hs, rfl, fun _ _ => rfl, fun _ h => h⟩

theorem Grows.trans {s'' : State w} (h : s.Grows s') (h' : s'.Grows s'') : s.Grows s'' where
  proper := h'.proper
  direct := h'.direct.trans h.direct
  entryAt level c := (h'.entryAt level c).trans (h.entryAt level c)
  node hu hp := h'.node hu (h.node hu hp)

variable {q : Mmpfn}

theorem Grows.of_newPage {new : List Nat}
    {dec : ∀ (r : Nat) (up : List Nat), Decidable (r = level ∧ up = new)} (hs : s.Proper)
    (hq : q ∉ s.inUse) (hin : s'.inUse = q :: s.inUse) (hdr : s'.direct = s.direct)
    (hfl : s'.page q = Page.filled)
    (hpg : ∀ r up x, up.length = r → s.tree.node r up = some x → s'.page x = s.page x)
    (hnn : s.tree.node level new = none)
    (hnd : ∀ {r up}, up.length ≤ r →
      s'.tree.node r up = if r = level ∧ up = new then some q else s.tree.node r up) :
    s.Grows s' where
  proper := by
    refine PageTree.Proper.add (r := level) (q := q) hs hq ?_ ?_ hnd
    · rw [hin]
      exact List.mem_cons_self
    · intro x hx
      rw [hin]
      exact List.mem_cons_of_mem q hx
  direct := hdr
  entryAt r c := by
    have hln := length_digitPath pfnsPerPage r c
    rw [State.entryAt, State.entryAt, pageAt, pageAt, hnd (Nat.le_of_eq hln)]
    split
    · next h =>
        obtain ⟨rfl, h⟩ := h
        rw [h, hnn, elim_some, hfl, Page.entry_filled, elim_none]
    · cases hx : s.tree.node r (digitPath pfnsPerPage r c) with
      | none => rfl
      | some x => rw [elim_some, elim_some, hpg r _ x hln hx]
  node hu hp := by
    rw [hnd hu, if_neg, hp]
    rintro ⟨rfl, rfl⟩
    rw [hnn] at hp
    cases hp

/-- What the allocator can answer. -/
theorem allocate_cases (s : State w) (offer : Option Mmpfn) :
    s.mmpAllocatePhysicalPageSlaInitialized offer = (s, pfnInvalid) ∨
    ∃ q, q ≠ pfnInvalid ∧ q ∉ s.inUse ∧ s.mmpAllocatePhysicalPageSlaInitialized offer
      = ({ s with page := update s.page q Page.filled, inUse := q :: s.inUse }, q) := by
  cases offer with
  | none => exact .inl rfl
  | some q =>
    simp only [mmpAllocatePhysicalPageSlaInitialized]
    split
    · exact .inl rfl
    · next h => exact .inr ⟨q, fun hq => h (.inl hq), fun hq => h (.inr hq), rfl⟩

theorem grows_link {up : List Nat} (hs : s.Proper)
    (hu : up.length < level) (hp : s.tree.node level up = some pfn)
    (hd : s.page pfn d = pfnInvalid) (hq : q ≠ pfnInvalid) (hfr : q ∉ s.inUse) :
    let s' := State.link { s with page := update s.page q Page.filled, inUse := q :: s.inUse } pfn d q
    s.Grows s' ∧ s'.tree.node level (d :: up) = some q := by
  intro s'
  have hpq : pfn ≠ q := fun h => hfr (h ▸ hs.owned (Nat.le_of_lt hu) hp)
  have hfl : s'.page q = Page.filled := by
    simp only [s', link, update_of_ne (Ne.symm hpq), update_self]
  have hother : ∀ x, x ≠ q → x ≠ pfn → s'.page x = s.page x := by
    intro x hxq hxp
    simp only [s', link, update_of_ne hxp, update_of_ne hxq]
  have hsm : ∀ e, s'.page pfn e = if e = d then q else s.page pfn e := by
    intro e
    simp only [s', link, update_self, update_of_ne hpq]
    exact update_apply ..
  have hnd : ∀ {r : Nat} {up' : List Nat}, up'.length ≤ r →
      s'.tree.node r up' = if r = level ∧ up' = d :: up then some q else s.tree.node r up' := by
    intro r up' hu'
    have hrt : s'.tree.root = s.tree.root := rfl
    refine PageTree.Proper.node_of_link hs hu hp (child_of_missing hd) hfr hpq hrt ?_ ?_ ?_ hu'
    · intro e
      exact child_of_missing (by rw [hfl]; rfl)
    · have hst : s'.page pfn d = q := by rw [hsm, if_pos rfl]
      rw [child_of_present (hst ▸ hq), hst]
    · intro x e hxq hxe
      by_cases hx : x = pfn
      · subst hx
        have he : e ≠ d := fun he => hxe (he ▸ rfl)
        simp only [tree, hsm, if_neg he]
      · exact congrFun (child_congr (hother x hxq hx)) e
  refine ⟨Grows.of_newPage hs hfr rfl rfl hfl ?_ ?_ hnd, ?_⟩
  · intro r up' x hln hx
    have hxq : x ≠ q := fun h => hfr (h ▸ hs.owned (Nat.le_of_eq hln) hx)
    refine hother x hxq ?_
    rintro rfl
    obtain ⟨rfl, rfl⟩ := hs.unique (Nat.le_of_lt hu) (Nat.le_of_eq hln) hp hx
    omega
  · rw [PageTree.node_cons_of_some hp]
    exact child_of_missing hd
  · rw [hnd hu, if_pos ⟨rfl, rfl⟩]

theorem grows_linkRoot (hs : s.Proper) (hlv : level < indirectLevels) (hrt : s.indirect level = pfnInvalid)
    (hq : q ≠ pfnInvalid) (hfr : q ∉ s.inUse) :
    let s' := State.linkRoot { s with page := update s.page q Page.filled,
                                      inUse := q :: s.inUse } level q
    s.Grows s' ∧ s'.tree.node level [] = some q := by
  intro s'
  have hfl : s'.page q = Page.filled := update_self ..
  have hother : ∀ x, x ≠ q → s'.page x = s.page x := fun x hx => update_of_ne hx ..
  have hrs : ∀ r, s'.tree.root r = if r = level then some q else s.tree.root r := by
    intro r
    by_cases hr : r = level
    · subst hr
      simp [tree, s', linkRoot, hlv, hq]
    · simp [tree, s', linkRoot, hr]
  have hnd : ∀ {r : Nat} {up : List Nat}, up.length ≤ r →
      s'.tree.node r up = if r = level ∧ up = [] then some q else s.tree.node r up := by
    intro r up hu
    refine PageTree.Proper.node_of_linkRoot hs (root_of_missing hrt) hfr hrs ?_ ?_ hu
    · intro e
      exact child_of_missing (by rw [hfl]; rfl)
    · intro x hx
      exact child_congr (hother x hx)
  have hnn : s.tree.node level [] = none := root_of_missing hrt
  refine ⟨Grows.of_newPage hs hfr rfl rfl hfl ?_ hnn hnd, ?_⟩
  · intro r up x hln hx
    exact hother x fun h => hfr (h ▸ hs.owned (Nat.le_of_eq hln) hx)
  · rw [hnd (Nat.zero_le level), if_pos ⟨rfl, rfl⟩]

/-! ## The way down -/

/-- The page that a read finds under a level, as `navigate` reports it. -/
def found (s : State w) (level c : Nat) : Except (Entry w) (Mmpfn × Nat) :=
  (s.pageAt level level c).elim (.error (noData w)) fun pfn => .ok (pfn, c / pfnsPerPage ^ level)

theorem pageAt_stays_none (h : s.pageAt level n c = none) (k : Nat) : s.pageAt level (n + k) c = none := by
  induction k with
  | zero => exact h
  | succ k ih =>
    rw [← Nat.add_assoc, pageAt_succ, ih]
    rfl

/-- A read follows the digits of the offset. -/
theorem navigate_read (offer : Nat → Option Mmpfn) (n k : Nat) (hk : k + n = level) (hp : s.pageAt level k c = some pfn) :
    navigate false offer n s pfn (c / pfnsPerPage ^ k) = (s, s.found level c) := by
  induction n generalizing k pfn with
  | zero =>
    obtain rfl : k = level := hk
    rw [navigate, found, hp, elim_some]
  | succ n ih =>
    have hnext := pageAt_succ s level k c
    rw [hp, bind_some] at hnext
    rw [navigate, if_neg Bool.false_ne_true, Nat.div_div_eq_div_mul, ← Nat.pow_succ]
    split
    · next hms =>
        rw [child_of_missing hms] at hnext
        have hnn := pageAt_stays_none hnext n
        rw [show k + 1 + n = level by omega] at hnn
        rw [found, hnn, elim_none]
    · next hpr =>
        rw [child_of_present hpr] at hnext
        exact ih (k + 1) (by omega) hnext

theorem reach_read (offer : Nat → Option Mmpfn)
    (hlv : level < indirectLevels) : s.reach false offer level c = (s, s.found level c) := by
  have hrt : s.pageAt level 0 c = s.tree.root level := rfl
  rw [reach, openRoot, if_neg Bool.false_ne_true]
  by_cases h : s.indirect level = pfnInvalid
  · rw [if_pos h]
    rw [root_of_missing h] at hrt
    have hnn := pageAt_stays_none hrt level
    rw [Nat.zero_add] at hnn
    simp only [found, hnn, elim_none]
  · rw [if_neg h]
    have hsm : s.tree.root level = some (s.indirect level) := if_pos ⟨hlv, h⟩
    have hnv := navigate_read offer level 0 (Nat.zero_add level) (hrt.trans hsm)
    rwa [Nat.pow_zero, Nat.div_one] at hnv

/-- What a modifying call meets on its way down: the array has only grown, and either a page could
not be had or the page of the offset is there. -/
def Arrives (s : State w) (level c : Nat) (r : State w × Except (Entry w) (Mmpfn × Nat)) : Prop :=
  s.Grows r.1 ∧ (r.2 = .error (outOfMemory w) ∨
    ∃ pfn, r.1.pageAt level level c = some pfn ∧ r.2 = .ok (pfn, c / pfnsPerPage ^ level))

theorem Arrives.of_grows
    {r : State w × Except (Entry w) (Mmpfn × Nat)} (h : s.Grows s') (hr : s'.Arrives level c r) :
    s.Arrives level c r := ⟨h.trans hr.1, hr.2⟩

theorem navigate_modify (offer : Nat → Option Mmpfn) (n k : Nat) (hs : s.Proper) (hk : k + n = level) (hp : s.pageAt level k c = some pfn) :
    s.Arrives level c (navigate true offer n s pfn (c / pfnsPerPage ^ k)) := by
  induction n generalizing s k pfn with
  | zero =>
    obtain rfl : k = level := hk
    exact ⟨Grows.refl hs, .inr ⟨pfn, hp, rfl⟩⟩
  | succ n ih =>
    have hdg : (digitPath pfnsPerPage k c).length = k := length_digitPath ..
    rw [navigate, if_pos rfl, Nat.div_div_eq_div_mul, ← Nat.pow_succ]
    split
    · next hms =>
        obtain h | ⟨q, hq, hfr, h⟩ := allocate_cases s (offer n)
        · rw [h]
          exact ⟨Grows.refl hs, .inl rfl⟩
        · rw [h]
          have hu : (digitPath pfnsPerPage k c).length < level := by omega
          obtain ⟨hgr, hnd⟩ := grows_link hs hu hp hms hq hfr
          simp only [if_neg hq]
          exact .of_grows hgr (ih (k + 1) hgr.proper (by omega) hnd)
    · next hpr =>
        have hnext := pageAt_succ s level k c
        rw [hp, bind_some, child_of_present hpr] at hnext
        exact ih (k + 1) hs (by omega) hnext

theorem reach_modify (offer : Nat → Option Mmpfn) (c : Nat)
    (hs : s.Proper) (hlv : level < indirectLevels) :
    s.Arrives level c (s.reach true offer level c) := by
  have hw : ∀ {s' : State w} {pfn : Mmpfn}, s.Grows s' → s'.tree.node level [] = some pfn →
      s.Arrives level c (navigate true offer level s' pfn c) := by
    intro s' pfn hgr hrt
    have hnv := navigate_modify (c := c) offer level 0 hgr.proper (Nat.zero_add level) hrt
    rw [Nat.pow_zero, Nat.div_one] at hnv
    exact .of_grows hgr hnv
  rw [reach, openRoot, if_pos rfl]
  by_cases h : s.indirect level = pfnInvalid
  · rw [if_pos h]
    obtain ha | ⟨q, hq, hfr, ha⟩ := allocate_cases s (offer level)
    · simp only [ha, if_pos]
      exact ⟨Grows.refl hs, .inl rfl⟩
    · obtain ⟨hgr, hrt⟩ := grows_linkRoot hs hlv h hq hfr
      simp only [ha, if_neg hq]
      exact hw hgr hrt
  · rw [if_neg h]
    exact hw (Grows.refl hs) (if_pos ⟨hlv, h⟩)

/-! ## Storing an entry -/

theorem tree_store_root (s : State w) (pfn : Mmpfn) (i : Nat) (v : Entry w) :
    (s.store pfn i v).tree.root = s.tree.root := rfl

variable {v : Entry w}

theorem page_store_of_ne (h : q ≠ pfn) : (s.store pfn i v).page q = s.page q := update_of_ne h ..

theorem node_store (hs : s.Proper)
    (hp : s.pageAt level level c = some pfn) {r : Nat} {up : List Nat} (hu : up.length ≤ r) :
    (s.store pfn i v).tree.node r up = s.tree.node r up :=
  PageTree.Proper.node_of_data hs (length_digitPath pfnsPerPage level c) hp
    (tree_store_root s pfn i v) (fun _ hq => child_congr (page_store_of_ne hq)) hu

theorem Proper.store (hs : s.Proper) (hp : s.pageAt level level c = some pfn) : (s.store pfn i v).Proper :=
  PageTree.Proper.congr hs fun _ _ hu => node_store hs hp hu

theorem entryAt_store (hs : s.Proper) (hp : s.pageAt level level c = some pfn) (r a : Nat) :
    (s.store pfn (c / pfnsPerPage ^ level) v).entryAt r a
      = if (r, a) = (level, c) then v else s.entryAt r a := by
  have hln : (digitPath pfnsPerPage r a).length = r := length_digitPath ..
  have hpt : (s.store pfn (c / pfnsPerPage ^ level) v).pageAt r r a = s.pageAt r r a :=
    node_store hs hp (Nat.le_of_eq hln)
  rw [entryAt, entryAt, hpt]
  cases hx : s.pageAt r r a with
  | none =>
    rw [if_neg, elim_none, elim_none]
    intro h
    cases h
    rw [hp] at hx
    cases hx
  | some x =>
    rw [elim_some, elim_some]
    by_cases hxp : x = pfn
    · subst hxp
      obtain ⟨rfl, hh⟩ := hs.unique (Nat.le_of_eq hln)
        (Nat.le_of_eq (length_digitPath pfnsPerPage level c)) hx hp
      have hpg : (s.store x (c / pfnsPerPage ^ r) v).page x
          = (s.page x).setEntry w (c / pfnsPerPage ^ r) v := update_self ..
      rw [hpg]
      by_cases hrs : a / pfnsPerPage ^ r = c / pfnsPerPage ^ r
      · rw [hrs, Page.entry_setEntry_self, if_pos (by rw [digitPath_inj hh hrs])]
      · rw [Page.entry_setEntry_of_ne _ _ hrs, if_neg]
        intro h
        exact hrs (by rw [(Prod.mk.inj h).2])
    · rw [page_store_of_ne hxp, if_neg]
      intro h
      cases h
      exact hxp (some.inj (hx.symm.trans hp))

/-! ## The calls -/

theorem mmLookUpEntrySla_eq (s : State w) (i : Nat) :
    s.mmLookUpEntrySla i = ⟨s, s.value i, s.place i⟩ := by
  rw [mmLookUpEntrySla, mmpLookUpEntrySlaPlusModify, value, place]
  split
  · rfl
  · change (match locate w i with
      | none => _
      | some (level, current) => _) = _
    cases hl : locate w i with
    | none => rfl
    | some x =>
      simp only [isSome_none, reach_read _ (level_lt_of_locate hl), found, entryAt, bind_some]
      cases hp : s.pageAt x.1 x.1 x.2 with
      | none => rfl
      | some pfn => rfl

/-- Growing changes no lookup and moves no entry. -/
theorem Grows.value (h : s.Grows s') (i : Nat) : s'.value i = s.value i := by
  simp only [State.value, h.direct, h.entryAt]

theorem Grows.place (h : s.Grows s') {x : Place} (hx : s.place i = some x) : s'.place i = some x := by
  rw [State.place] at hx ⊢
  split at hx
  · next hi => rwa [if_pos hi]
  · next hi =>
      rw [if_neg hi]
      obtain ⟨y, hl, hy⟩ := bind_eq_some_iff.1 hx
      obtain ⟨pfn, hp, rfl⟩ := map_eq_some_iff.1 hy
      have hp' : s'.pageAt y.1 y.1 y.2 = some pfn := h.node (Nat.le_of_eq (length_digitPath ..)) hp
      rw [hl, bind_some, hp', map_some]

/-- What one assignment does. -/
structure Assigned (s : State w) (i : Nat) (v : Entry w) (r : Outcome w) : Prop where
  proper : r.state.Proper
  value : ∀ j, r.state.value j = if r.place.isSome ∧ j = i then v else s.value j
  place : ∀ {j x}, s.place j = some x → r.state.place j = some x
  /-- Without a place nothing is stored: the index has none, or a page could not be had. -/
  failed : r.place = none →
    (indexLimit w ≤ i ∧ r.entry = noData w ∧ r.state = s) ∨
    (i < indexLimit w ∧ r.entry = outOfMemory w)
  stored : r.place.isSome → i < indexLimit w ∧ r.entry = v ∧ r.state.place i = r.place

theorem assigned_direct (v : Entry w) (hs : s.Proper) (hi : i < directEntryCount) :
    s.Assigned i v ⟨{ s with direct := update s.direct i v },
      update s.direct i v i, some (.direct i)⟩ where
  proper := hs
  value j := by
    simp only [State.value, isSome_some, true_and]
    by_cases hj : j = i
    · subst hj
      rw [if_pos hi, if_pos rfl, update_self]
    · rw [if_neg hj, update_of_ne hj]
      rfl
  place h := h
  failed h := nomatch h
  stored _ := ⟨by rw [indexLimit]; omega, update_self .., if_pos hi⟩

theorem assigned_store (v : Entry w)
    (hi : directEntryCount ≤ i) (hl : locate w i = some (level, c)) (hgr : s.Grows s')
    (hp : s'.pageAt level level c = some pfn) :
    s.Assigned i v ⟨s'.store pfn (c / pfnsPerPage ^ level) v,
      ((s'.store pfn (c / pfnsPerPage ^ level) v).page pfn).entry w (c / pfnsPerPage ^ level),
      some (.page pfn (c / pfnsPerPage ^ level))⟩ := by
  have hnd : ∀ r a, (s'.store pfn (c / pfnsPerPage ^ level) v).pageAt r r a = s'.pageAt r r a :=
    fun r a => node_store hgr.proper hp (Nat.le_of_eq (length_digitPath ..))
  have hpl : ∀ j, (s'.store pfn (c / pfnsPerPage ^ level) v).place j = s'.place j := by
    intro j
    simp only [State.place, hnd]
  have he : ((s'.store pfn (c / pfnsPerPage ^ level) v).page pfn).entry w
      (c / pfnsPerPage ^ level) = v := by
    simp only [store, update_self, Page.entry_setEntry_self]
  refine ⟨hgr.proper.store hp, ?_, ?_, fun h => (nomatch h), fun _ => ⟨?_, he, ?_⟩⟩
  · intro j
    rw [← hgr.value j]
    simp only [State.value, isSome_some, true_and, entryAt_store hgr.proper hp]
    by_cases hj : j < directEntryCount
    · rw [if_pos hj, if_pos hj, if_neg (by omega)]
      rfl
    · rw [if_neg hj, if_neg hj]
      cases hlj : locate w j with
      | none =>
        rw [if_neg]
        rintro rfl
        rw [hl] at hlj
        cases hlj
      | some y =>
        have hif : y = (level, c) ↔ j = i := by
          constructor
          · rintro rfl
            exact locate_inj (Nat.le_of_not_lt hj) hi hlj hl
          · rintro rfl
            exact some.inj (hlj.symm.trans hl)
        simp only [hif]
  · intro j x hx
    rw [hpl]
    exact hgr.place hx
  · rw [← locate_isSome hi, hl]
    rfl
  · rw [hpl, State.place, if_neg (by omega), hl, bind_some, hp, map_some]

theorem assigned (hs : s.Proper) (i : Nat) (v : Entry w)
    (offer : Nat → Option Mmpfn) : s.Assigned i v (s.mmAssignEntrySla i v offer) := by
  rw [mmAssignEntrySla, mmpLookUpEntrySlaPlusModify]
  by_cases hi : i < directEntryCount
  · rw [if_pos hi]
    exact assigned_direct v hs hi
  · rw [if_neg hi]
    have hi : directEntryCount ≤ i := by omega
    change s.Assigned i v (match locate w i with
      | none => _
      | some (level, current) => _)
    cases hl : locate w i with
    | none =>
      have hlm : ¬ i < indexLimit w := by
        rw [← locate_isSome hi, hl]
        exact Bool.false_ne_true
      refine ⟨hs, fun j => (if_neg fun h => Bool.false_ne_true h.1).symm, fun h => h,
        fun _ => .inl ⟨by omega, rfl, rfl⟩, fun h => (nomatch h)⟩
    | some x =>
      have hlm : i < indexLimit w := by
        rw [← locate_isSome hi, hl]
        rfl
      obtain ⟨hgr, hr⟩ := reach_modify offer x.2 hs (level_lt_of_locate hl)
      simp only [isSome_some]
      generalize s.reach true offer x.1 x.2 = r at hgr hr
      obtain ⟨s', r⟩ := r
      obtain rfl | ⟨pfn, hp, rfl⟩ := hr
      · exact ⟨hgr.proper, fun j => by rw [if_neg (fun h => nomatch h.1), hgr.value],
          hgr.place, fun _ => .inr ⟨hlm, rfl⟩, fun h => (nomatch h)⟩
      · exact assigned_store v hi hl hgr hp

/-- **Distinct indices have distinct places.** -/
theorem place_inj (hs : s.Proper) {j : Nat} {x : Place}
    (hi : s.place i = some x) (hj : s.place j = some x) : i = j := by
  rw [place] at hi hj
  split at hi <;> split at hj
  · have heq := some.inj (hi.trans hj.symm)
    exact Place.direct.inj heq
  · cases hi
    obtain ⟨y, -, hy⟩ := bind_eq_some_iff.1 hj
    obtain ⟨pfn, -, h⟩ := map_eq_some_iff.1 hy
    exact Place.noConfusion h
  · cases hj
    obtain ⟨y, -, hy⟩ := bind_eq_some_iff.1 hi
    obtain ⟨pfn, -, h⟩ := map_eq_some_iff.1 hy
    exact Place.noConfusion h
  · next hi' hj' =>
      obtain ⟨y, hly, hy⟩ := bind_eq_some_iff.1 hi
      obtain ⟨pfn, hp, rfl⟩ := map_eq_some_iff.1 hy
      obtain ⟨z, hlz, hz⟩ := bind_eq_some_iff.1 hj
      obtain ⟨pfn', hp', heq⟩ := map_eq_some_iff.1 hz
      obtain ⟨rfl, hrs⟩ := Place.page.inj heq
      obtain ⟨hlv, hpt⟩ := hs.unique (Nat.le_of_eq (length_digitPath ..))
        (Nat.le_of_eq (length_digitPath ..)) hp hp'
      obtain ⟨level, c⟩ := y
      obtain ⟨level', c'⟩ := z
      obtain rfl : level = level' := hlv
      obtain rfl : c = c' := digitPath_inj hpt hrs.symm
      exact locate_inj (Nat.le_of_not_lt hi') (Nat.le_of_not_lt hj') hly hlz

end State

/-! ## Runs -/

/-- One call on the array. The offers are what the page allocator answers during the call. -/
inductive Action (w : Width)
  | assign (i : Nat) (v : Entry w) (offer : Nat → Option Mmpfn)
  | lookUp (i : Nat)

/-- An assignment that was made, and whether it stored its value. -/
structure Event (w : Width) where
  index : Nat
  value : Entry w
  stored : Bool

/-- The array with the assignments made so far, the latest first. -/
structure History (w : Width) where
  state : State w
  log : List (Event w)

namespace History

/-- An array fresh from `MmInitializeSla`, over memory in any state. -/
def start (s : State w) : History w := ⟨s.mmInitializeSla, []⟩

def step (h : History w) : Action w → History w
  | .assign i v offer =>
    let r := h.state.mmAssignEntrySla i v offer
    ⟨r.state, ⟨i, v, r.place.isSome⟩ :: h.log⟩
  | .lookUp i => ⟨(h.state.mmLookUpEntrySla i).state, h.log⟩

def run (h : History w) (actions : List (Action w)) : History w := actions.foldl step h

/-- The value last stored at an index, or `MM_SLA_NO_DATA`. -/
def lastStored (h : History w) (i : Nat) : Entry w :=
  ((h.log.find? fun e => e.index = i ∧ e.stored).map (·.value)).getD (noData w)

/-- The invariant of a run: the tree of pages is proper and every index reads as last stored. -/
structure Inv (h : History w) : Prop where
  proper : h.state.Proper
  value : ∀ i, h.state.value i = h.lastStored i

theorem Inv.start (s : State w) : (start s).Inv where
  proper := State.Proper.initialize s
  value i := by
    have hrt : ∀ level, s.mmInitializeSla.tree.root level = none :=
      fun level => if_neg fun h => h.2 (if_pos h.1)
    have hnn : ∀ level n c, s.mmInitializeSla.pageAt level n c = none := by
      intro level n c
      have := State.pageAt_stays_none (c := c) (n := 0) (hrt level) n
      rwa [Nat.zero_add] at this
    change s.mmInitializeSla.value i = noData w
    rw [State.value]
    split
    · next hi => exact if_pos hi
    · cases State.locate w i with
      | none => rfl
      | some x => simp only [State.entryAt, hnn, elim_none]

variable {h : History w}

theorem Inv.step (hi : h.Inv) (a : Action w) : (h.step a).Inv := by
  cases a with
  | lookUp i =>
    rw [History.step, State.mmLookUpEntrySla_eq]
    exact hi
  | assign i v offer =>
    have ha := State.assigned hi.proper i v offer
    refine ⟨ha.proper, fun j => ?_⟩
    simp only [History.step, ha.value, hi.value, lastStored, List.find?_cons]
    by_cases hj : (h.state.mmAssignEntrySla i v offer).place.isSome ∧ j = i
    · simp [hj.1, hj.2]
    · have hsk : ¬ (i = j ∧ (h.state.mmAssignEntrySla i v offer).place.isSome) :=
        fun h => hj ⟨h.2, h.1.symm⟩
      simp only [if_neg hj, hsk, decide_false]

theorem Inv.run (hi : h.Inv) (act : List (Action w)) : (h.run act).Inv := by
  induction act generalizing h with
  | nil => exact hi
  | cons a act ih => exact ih (hi.step a)

/-- The array behaves as a map from the indices below the limit to entries. -/
structure IsMap (h : History w) : Prop where
  lookUp : ∀ i, (h.state.mmLookUpEntrySla i).entry = h.lastStored i
  lookUp_keeps : ∀ i, (h.state.mmLookUpEntrySla i).state = h.state
  /-- Two indices never share a place. -/
  apart : ∀ i j x, (h.state.mmLookUpEntrySla i).place = some x →
    (h.state.mmLookUpEntrySla j).place = some x → i = j
  /-- A place once given is kept, and an assignment that stores reports it. -/
  placed : ∀ i v offer x, (h.state.mmLookUpEntrySla i).place = some x → ∀ j,
    ((h.state.mmAssignEntrySla j v offer).state.mmLookUpEntrySla i).place = some x
  reported : ∀ i v offer x, (h.state.mmAssignEntrySla i v offer).place = some x →
    ((h.state.mmAssignEntrySla i v offer).state.mmLookUpEntrySla i).place = some x
  /-- An assignment stores its value exactly when the index is below the limit and the call does
  not return `MM_SLA_OUT_OF_MEMORY`. -/
  stored : ∀ i v offer, v ≠ outOfMemory w →
    ((h.state.mmAssignEntrySla i v offer).place.isSome ↔
      i < indexLimit w ∧ (h.state.mmAssignEntrySla i v offer).entry ≠ outOfMemory w)
  outOfMemory : ∀ i v offer, v ≠ outOfMemory w →
    (h.state.mmAssignEntrySla i v offer).entry = outOfMemory w → ∀ j,
    ((h.state.mmAssignEntrySla i v offer).state.mmLookUpEntrySla j).entry
      = (h.state.mmLookUpEntrySla j).entry
  pastLimit : ∀ i v offer, indexLimit w ≤ i → (h.state.mmAssignEntrySla i v offer).state = h.state

theorem Inv.isMap (hi : h.Inv) : h.IsMap := by
  have hst : ∀ i v offer, v ≠ Sla.outOfMemory w → ((h.state.mmAssignEntrySla i v offer).place.isSome ↔
        i < indexLimit w ∧ (h.state.mmAssignEntrySla i v offer).entry ≠ Sla.outOfMemory w) := by
    intro i v offer hv
    have ha := State.assigned hi.proper i v offer
    constructor
    · intro hp
      obtain ⟨hlm, he, -⟩ := ha.stored hp
      exact ⟨hlm, fun h => hv (he.symm.trans h)⟩
    · rintro ⟨hlm, he⟩
      by_contra hp
      obtain ⟨hps, -⟩ | ⟨-, hfl⟩ := ha.failed (not_isSome_iff_eq_none.1 hp)
      · omega
      · exact he hfl
  constructor
  · intro i
    rw [State.mmLookUpEntrySla_eq]
    exact hi.value i
  · intro i
    rw [State.mmLookUpEntrySla_eq]
  · intro i j x hx hy
    rw [State.mmLookUpEntrySla_eq] at hx hy
    exact State.place_inj hi.proper hx hy
  · intro i v offer x hx j
    rw [State.mmLookUpEntrySla_eq] at hx ⊢
    exact (State.assigned hi.proper j v offer).place hx
  · intro i v offer x hx
    rw [State.mmLookUpEntrySla_eq]
    exact ((State.assigned hi.proper i v offer).stored (hx ▸ rfl)).2.2.trans hx
  · exact hst
  · intro i v offer hv he j
    have hp : ¬ (h.state.mmAssignEntrySla i v offer).place.isSome :=
      fun hp => ((hst i v offer hv).1 hp).2 he
    rw [State.mmLookUpEntrySla_eq, State.mmLookUpEntrySla_eq]
    change (h.state.mmAssignEntrySla i v offer).state.value j = h.state.value j
    rw [(State.assigned hi.proper i v offer).value j, if_neg fun h => hp h.1]
  · intro i v offer hlm
    have ha := State.assigned hi.proper i v offer
    cases hp : (h.state.mmAssignEntrySla i v offer).place with
    | none =>
      obtain ⟨-, -, hsm⟩ | ⟨hlt, -⟩ := ha.failed hp
      · exact hsm
      · omega
    | some x =>
      have := (ha.stored (hp ▸ rfl)).1
      omega

/-- **The sparse linear array is a map**, after any run of calls and whatever pages the allocator
gave or refused: lookups return what was last stored, places are never shared, and neither an
assignment that ran out of memory nor one past the limit changes a lookup. -/
theorem sla_is_map (s : State w) (actions : List (Action w)) : ((start s).run actions).IsMap :=
  ((Inv.start s).run actions).isMap

/-- `MM_SLA_OUT_OF_MEMORY` is reserved: assigned as a value, it is stored and returned. -/
theorem outOfMemory_stored :
    let s : State .bits64 := (start ⟨fun _ => 0, fun _ => 0, fun _ _ => 0, []⟩).state
    let r := s.mmAssignEntrySla 0 (outOfMemory .bits64) fun _ => none
    r.entry = outOfMemory .bits64 ∧
      (r.state.mmLookUpEntrySla 0).entry ≠ (s.mmLookUpEntrySla 0).entry := by
  decide

end History

end Boron.Mm.Sla
