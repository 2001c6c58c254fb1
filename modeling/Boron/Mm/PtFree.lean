import Mathlib.Data.List.FinRange
import Boron.Mm.Pte

/-! # Freeing unused page tables (`mm/amd64/ptfree.c`)

`MiFreeUnusedMappingLevelsInCurrentMap` goes through the PML4 entries of a range and, below each of
them, through the whole tree of tables, freeing those that are no longer used. A table of the last
level is given up if all its entries are zero, and also, since the test for a zero entry is the
wrong way round, if none of them is. A table above is given up when all tables below it are.

`MapEntry.free_unused_iff` and `MapEntry.lastTable_free` say just that of one entry of any level;
`MapEntry.freed_perm` that a table's frame is either freed once or still in the tree. -/

namespace Boron.Mm

open List Option

/-! ## The tree of tables -/

/-- An entry of a table above the last level: `MapEntry 0` is an entry of a PML2, `MapEntry 2` one of
the PML4. A present entry names the frame of a table, and here also holds it. -/
inductive MapEntry : Nat → Type
  | absent {n : Nat} (word : BitVec 64) : MapEntry n
  | last (frame : Nat) (ptes : Fin 512 → Pte) : MapEntry 0
  | table {n : Nat} (frame : Nat) (sub : Fin 512 → MapEntry n) : MapEntry (n + 1)

/-- What a round of the loop leaves: whether the table below is unused, the entry, and the frames
freed so far. -/
structure Round (n : Nat) where
  unused : Bool
  entry : MapEntry n
  freed : List Nat

/-- The pages below an entry. -/
def span (n : Nat) : Nat := 512 ^ (n + 1)

/-- The index of the entry that a page is below. -/
def slot (n page : Nat) : Fin 512 := ⟨page / span n % 512, Nat.mod_lt _ (by decide)⟩

namespace MapEntry

def isPresent {n : Nat} : MapEntry n → Bool
  | .absent _ => false
  | _ => true

/-- `MmIsEqualPte` with the zero entry. -/
def isZero {n : Nat} : MapEntry n → Bool
  | .absent word => word = 0
  | _ => false

/-- The table of the last level that a page is in. -/
def lastTable : {n : Nat} → MapEntry n → (page : Nat) → Option (Fin 512 → Pte)
  | _, .absent _, _ => none
  | _, .last _ ptes, _ => some ptes
  | n + 1, .table _ sub, page => (sub (slot n page)).lastTable page

/-- The frame of the table that a page is below, named by an entry of level `l`. -/
def frameAt : {n : Nat} → MapEntry n → (l page : Nat) → Option Nat
  | _, .absent _, _, _ => none
  | _, .last frame _, l, _ => if l = 0 then some frame else none
  | n + 1, .table frame sub, l, page =>
    if l = n + 1 then some frame else (sub (slot n page)).frameAt l page

/-- The frames of all tables below an entry. -/
def tables : {n : Nat} → MapEntry n → List Nat
  | _, .absent _ => []
  | _, .last frame _ => [frame]
  | _, .table frame sub => frame :: (List.finRange 512).flatMap fun i => (sub i).tables

/-! ## Freeing -/

/-- `MmpIsPteListCompletelyEmpty`, on a table of the last level. -/
def isEmptyList (ptes : Fin 512 → Pte) : Bool :=
  (List.finRange 512).all fun i => ptes i = mmBuildZeroPte

/-- `MmpFreeUnusedMappingLevelsInCurrentMapPML`, on a table of the last level: the loop ends with
`false` at an entry that is zero and, which no zero entry is, not decommitted. -/
def lastLevelUnused (ptes : Fin 512 → Pte) : Bool :=
  (List.finRange 512).all fun i =>
    !decide (ptes i = mmBuildZeroPte) || mmIsDecommittedPte .amd64 (ptes i)

/-- The end of a round whose table is unused: free the table, where that is allowed. -/
def giveUp {n : Nat} (mayFree : Bool) (frame : Nat) (entry : MapEntry n) (freed : List Nat) :
    Round n :=
  if mayFree then ⟨true, .absent 0, freed ++ [frame]⟩ else ⟨true, entry, freed⟩

/-- A round of the loop, of `MmpFreeUnusedMappingLevelsInCurrentMapPML` with `mayFree` set and of
`MiFreeUnusedMappingLevelsInCurrentMap` with `ShouldUnmapPML4`. Every round looks at its own entry
only, so the recursive call does one round for each entry of the table. -/
def free (mayFree : Bool) : {n : Nat} → MapEntry n → Round n
  | _, .absent word => ⟨true, .absent word, []⟩
  | _, .last frame ptes =>
    if isEmptyList ptes && mayFree then ⟨true, .absent 0, [frame]⟩
    else if lastLevelUnused ptes then giveUp mayFree frame (.last frame ptes) []
    else ⟨false, .last frame ptes, []⟩
  | _, .table frame sub =>
    if ((List.finRange 512).all fun i => (sub i).isZero) && mayFree then
      ⟨true, .absent 0, [frame]⟩
    else
      let entry := .table frame fun i => ((sub i).free true).entry
      let freed := (List.finRange 512).flatMap fun i => ((sub i).free true).freed
      if (List.finRange 512).all fun i => ((sub i).free true).unused then
        giveUp mayFree frame entry freed
      else ⟨false, entry, freed⟩

end MapEntry

/-- The PML4. -/
structure PageMap where
  top : Fin 512 → MapEntry 2

namespace PageMap

/-- The pages below one entry of the PML4, `PTES_COVERED_BY_PML4`. -/
def ptesCoveredByPml4 : Nat := 0x8000000

/-- The loop of `MiFreeUnusedMappingLevelsInCurrentMap`, with the number of rounds left; `none` if it
runs past the end of the PML4. -/
def freeSlots (shouldUnmapPml4 : Bool) :
    (rounds index : Nat) → PageMap → List Nat → Option (PageMap × List Nat)
  | 0, _, m, freed => some (m, freed)
  | rounds + 1, index, m, freed =>
    if h : index < 512 then
      let r := (m.top ⟨index, h⟩).free shouldUnmapPml4
      freeSlots shouldUnmapPml4 rounds (index + 1) ⟨Function.update m.top ⟨index, h⟩ r.entry⟩
        (freed ++ r.freed)
    else none

/-- The entry of the PML4 that an address is below. -/
def level4Index (va : Nat) : Nat := va / pageSize / ptesCoveredByPml4 % 512

/-- `MiFreeUnusedMappingLevelsInCurrentMap`, with the frames that it frees. -/
def miFreeUnusedMappingLevelsInCurrentMap (m : PageMap) (startVa sizePages : Nat) :
    Option (PageMap × List Nat) :=
  freeSlots (decide (level4Index startVa < 256))
    ((sizePages + (ptesCoveredByPml4 - 1)) / ptesCoveredByPml4) (level4Index startVa) m []

end PageMap

/-! ## One entry -/

namespace MapEntry

/-- All entries of a table are zero, or none is. -/
def Uniform (ptes : Fin 512 → Pte) : Prop :=
  (∀ i, ptes i = mmBuildZeroPte) ∨ ∀ i, ptes i ≠ mmBuildZeroPte

variable {ptes : Fin 512 → Pte}

theorem isEmptyList_iff : isEmptyList ptes = true ↔ ∀ i, ptes i = mmBuildZeroPte := by
  simp [isEmptyList]

theorem lastLevelUnused_iff : lastLevelUnused ptes = true ↔ ∀ i, ptes i ≠ mmBuildZeroPte := by
  simp only [lastLevelUnused, List.all_eq_true, mem_finRange, true_imp_iff, Bool.or_eq_true,
    Bool.not_eq_true', decide_eq_false_iff_not]
  constructor
  · rintro h i hz
    obtain hne | hmr := h i
    · exact hne hz
    · rw [hz, isDecommitted_zero] at hmr
      cases hmr
  · exact fun h i => .inl (h i)

open Classical in
/-- A table of the last level is given up exactly when it is uniform. -/
theorem free_last (frame : Nat) (ptes : Fin 512 → Pte) : (last frame ptes).free true
      = if Uniform ptes then ⟨true, .absent 0, [frame]⟩ else ⟨false, .last frame ptes, []⟩ := by
  unfold free
  by_cases he : isEmptyList ptes = true
  · rw [if_pos (by rw [he]; rfl), if_pos (.inl (isEmptyList_iff.1 he))]
  · rw [if_neg (by rw [Bool.and_true]; exact he)]
    by_cases hfl : lastLevelUnused ptes = true
    · rw [if_pos hfl, if_pos (.inr (lastLevelUnused_iff.1 hfl))]
      rfl
    · rw [if_neg hfl, if_neg]
      rintro (hz | hnz)
      · exact he (isEmptyList_iff.2 hz)
      · exact hfl (lastLevelUnused_iff.2 hnz)

variable {n : Nat}

variable {e : MapEntry n}

theorem free_of_isZero (h : e.isZero = true) (mayFree : Bool) : e.free mayFree = ⟨true, e, []⟩ := by
  cases e with
  | absent word => rfl
  | last frame ptes => cases h
  | table frame sub => cases h

/-- The table that the rounds below leave. -/
def rounds {n : Nat} (sub : Fin 512 → MapEntry n) (i : Fin 512) : MapEntry n :=
  ((sub i).free true).entry

/-- The frames that the rounds below free. -/
def freedBelow {n : Nat} (sub : Fin 512 → MapEntry n) : List Nat :=
  (List.finRange 512).flatMap fun i => ((sub i).free true).freed

open Classical in
/-- A table above the last level is given up exactly when all tables below are. -/
theorem free_table (mayFree : Bool) (frame : Nat) (sub : Fin 512 → MapEntry n) :
    (table frame sub).free mayFree = if ∀ i, ((sub i).free true).unused = true then
          giveUp mayFree frame (.table frame (rounds sub)) (freedBelow sub)
        else ⟨false, .table frame (rounds sub), freedBelow sub⟩ := by
  conv_lhs => unfold free
  split
  · next he =>
      obtain ⟨hz, rfl⟩ := Bool.and_eq_true_iff.1 he
      have hb : ∀ i, (sub i).free true = ⟨true, sub i, []⟩ := fun i =>
        free_of_isZero (List.all_eq_true.1 hz i (mem_finRange i)) true
      have hfreed : freedBelow sub = [] := by
        unfold freedBelow
        simp only [hb, flatMap_eq_nil_iff, implies_true]
      rw [if_pos fun i => by rw [hb i], hfreed]
      rfl
  · by_cases ha : ∀ i, ((sub i).free true).unused = true
    · rw [if_pos (List.all_eq_true.2 fun i _ => ha i), if_pos ha]
      rfl
    · rw [if_neg (fun h => ha fun i => List.all_eq_true.1 h i (mem_finRange i)), if_neg ha]
      rfl

/-! ## Which tables go -/

theorem span_pos (n : Nat) : 0 < span n := Nat.pow_pos (by decide)

variable {page : Nat}

/-- A page is below an entry of a table when it is below the table and the index is the entry's. -/
theorem div_span_iff {c : Nat} {i : Fin 512} :
    page / span n = 512 * c + i ↔ page / span (n + 1) = c ∧ slot n page = i := by
  have hp : page / span (n + 1) = page / span n / 512 := by
    rw [Nat.div_div_eq_div_mul]
    rfl
  rw [hp, Fin.ext_iff, slot]
  simp only
  omega

/-- An entry's table is unused when every table of the last level below it is uniform. -/
theorem free_unused_iff (e : MapEntry n) (c : Nat) : (e.free true).unused = true ↔
      ∀ page ptes, page / span n = c → e.lastTable page = some ptes → Uniform ptes := by
  induction e generalizing c with
  | absent word => exact ⟨fun _ => nofun, fun _ => rfl⟩
  | last frame ptes =>
    rw [free_last]
    constructor
    · intro h page ptes' _ hb
      cases hb
      by_contra hnt
      rw [if_neg hnt] at h
      cases h
    · intro h
      have hp : c * span 0 / span 0 = c := Nat.mul_div_cancel _ (span_pos 0)
      rw [if_pos (h (c * span 0) ptes hp rfl)]
  | @table n frame sub ih =>
    have hu : ((table frame sub).free true).unused = true ↔ ∀ i, ((sub i).free true).unused = true := by
      rw [free_table]
      constructor
      · intro h
        by_contra hnt
        rw [if_neg hnt] at h
        cases h
      · intro h
        rw [if_pos h]
        rfl
    rw [hu]
    constructor
    · intro h page ptes hp hb
      exact (ih _ (512 * c + slot n page)).1 (h _) page ptes (div_span_iff.2 ⟨hp, rfl⟩) hb
    · intro h i
      rw [ih i (512 * c + i)]
      intro page ptes hp hb
      obtain ⟨hc, rfl⟩ := div_span_iff.1 hp
      exact h page ptes hc hb

variable {mayFree : Bool}

theorem lastTable_free (hfr : mayFree = true ∨ 0 < n) (hb : e.lastTable page = some ptes)
    (hx : ¬ Uniform ptes) : (e.free mayFree).entry.lastTable page = some ptes := by
  induction e generalizing mayFree with
  | absent word => cases hb
  | last frame ptes' =>
    obtain rfl := hfr.resolve_right (Nat.lt_irrefl 0)
    cases hb
    rw [free_last, if_neg hx]
    rfl
  | @table n frame sub ih =>
    have hp : ¬ ∀ i, ((sub i).free true).unused = true := fun ha =>
      hx ((free_unused_iff _ (page / span n)).1 (ha (slot n page)) page ptes rfl hb)
    rw [free_table, if_neg hp]
    exact ih _ (.inl rfl) hb

/-- No other tables of the last level are left. -/
theorem lastTable_of_free (hfr : mayFree = true ∨ 0 < n)
    (hb : (e.free mayFree).entry.lastTable page = some ptes) :
    e.lastTable page = some ptes ∧ ¬ Uniform ptes := by
  induction e generalizing mayFree with
  | absent word => cases hb
  | last frame ptes' =>
    obtain rfl := hfr.resolve_right (Nat.lt_irrefl 0)
    rw [free_last] at hb
    split at hb
    · cases hb
    · next hx =>
        cases hb
        exact ⟨rfl, hx⟩
  | @table n frame sub ih =>
    rw [free_table] at hb
    split at hb
    · unfold giveUp at hb
      split at hb
      · cases hb
      · exact ih _ (.inl rfl) hb
    · exact ih _ (.inl rfl) hb

/-! ## Frames -/

/-- An entry whose table is not used has no table behind it any more. -/
theorem absent_of_unused (h : (e.free true).unused = true) :
    ∃ word, (e.free true).entry = .absent word := by
  cases e with
  | absent word => exact ⟨word, rfl⟩
  | last frame ptes =>
    rw [free_last] at h ⊢
    split at h
    · next hu => exact ⟨_, congrArg _ (if_pos hu)⟩
    · cases h
  | table frame sub =>
    rw [free_table] at h ⊢
    split at h
    · next ha => exact ⟨_, congrArg _ (if_pos ha)⟩
    · cases h

theorem tables_of_unused (h : (e.free true).unused = true) : (e.free true).entry.tables = [] := by
  obtain ⟨word, hw⟩ := absent_of_unused h
  rw [hw]
  rfl

/-- The frame of a table is freed once or still in the tree. -/
theorem freed_perm (e : MapEntry n) (mayFree : Bool) :
    ((e.free mayFree).freed ++ (e.free mayFree).entry.tables).Perm e.tables := by
  induction e generalizing mayFree with
  | absent word => exact .refl _
  | last frame ptes =>
    unfold free giveUp
    split
    · exact .refl _
    · split
      · split <;> exact .refl _
      · exact .refl _
  | @table n frame sub ih =>
    have hb : (freedBelow sub ++ (List.finRange 512).flatMap fun i => (rounds sub i).tables).Perm
        ((List.finRange 512).flatMap fun i => (sub i).tables) :=
      (flatMap_append_perm ..).trans (Perm.flatMap_left _ fun i _ => ih i true)
    have hp : (freedBelow sub ++ (table frame (rounds sub)).tables).Perm (table frame sub).tables :=
      perm_middle.trans (hb.cons frame)
    rw [free_table]
    split
    · next ha =>
        unfold giveUp
        split
        · have hgn : ((List.finRange 512).flatMap fun i => (rounds sub i).tables) = [] :=
            flatMap_eq_nil_iff.2 fun i _ => tables_of_unused (ha i)
          rw [hgn, append_nil] at hb
          refine List.Perm.trans ?_ (hb.cons frame)
          simp only [tables, append_nil]
          exact perm_append_singleton frame (freedBelow sub)
        · dsimp only
          exact hp
    · dsimp only
      exact hp

variable {l f : Nat}

theorem frameAt_le (h : e.frameAt l page = some f) : l ≤ n := by
  induction e with
  | absent word => cases h
  | last frame ptes =>
    unfold frameAt at h
    split at h
    · omega
    · cases h
  | @table n frame sub ih =>
    unfold frameAt at h
    split at h
    · omega
    · have := ih _ h
      omega

theorem mem_tables_of_frameAt (h : e.frameAt l page = some f) : f ∈ e.tables := by
  induction e with
  | absent word => cases h
  | last frame ptes =>
    unfold frameAt at h
    split at h
    · cases h
      exact mem_singleton_self _
    · cases h
  | @table n frame sub ih =>
    unfold frameAt at h
    split at h
    · cases h
      exact mem_cons_self
    · exact mem_cons_of_mem _ (mem_flatMap.2 ⟨_, mem_finRange _, ih _ h⟩)

variable {page' : Nat}

/-- Pages below one table are below one table of every higher level. -/
theorem div_span_mono (hl : l ≤ n) (h : page' / span l = page / span l) :
    page' / span n = page / span n := by
  have hp : span n = span l * 512 ^ (n - l) := by
    rw [span, span, ← Nat.pow_add]
    congr 1
    omega
  rw [hp, ← Nat.div_div_eq_div_mul, ← Nat.div_div_eq_div_mul, h]

theorem slot_eq_of_div (hl : l ≤ n) (h : page' / span l = page / span l) : slot n page' = slot n page := by
  unfold slot
  simp only [div_span_mono hl h]

theorem mem_freed (hfr : e.frameAt l page = some f)
    (h : ∀ page' ptes, page' / span l = page / span l → e.lastTable page' = some ptes →
      Uniform ptes) : f ∈ (e.free true).freed := by
  induction e with
  | absent word => cases hfr
  | last frame ptes =>
    unfold frameAt at hfr
    split at hfr
    · obtain rfl := some.inj hfr
      rw [free_last, if_pos (h page ptes rfl rfl)]
      exact mem_singleton_self _
    · cases hfr
  | @table n frame sub ih =>
    unfold frameAt at hfr
    split at hfr
    · next hl =>
        subst hl
        obtain rfl := some.inj hfr
        have hu := (free_unused_iff (table frame sub) (page / span (n + 1))).2 h
        rw [free_table] at hu ⊢
        split at hu
        · next ha =>
            rw [if_pos ha]
            exact mem_append_right _ (mem_singleton_self _)
        · cases hu
    · have hl := frameAt_le hfr
      have hme : f ∈ freedBelow sub := by
        refine mem_flatMap.2 ⟨slot n page, mem_finRange _, ih _ hfr ?_⟩
        intro page' ptes hp hb
        refine h page' ptes hp ?_
        rw [lastTable, slot_eq_of_div hl hp]
        exact hb
      rw [free_table]
      split
      · exact mem_append_left _ hme
      · dsimp only
        exact hme

theorem frameAt_free (hfr : mayFree = true ∨ 0 < n) (hfm : e.frameAt l page = some f)
    (hpg : page' / span l = page / span l) (hb : e.lastTable page' = some ptes)
    (hx : ¬ Uniform ptes) : (e.free mayFree).entry.frameAt l page = some f := by
  induction e generalizing mayFree with
  | absent word => cases hfm
  | last frame ptes' =>
    obtain rfl := hfr.resolve_right (Nat.lt_irrefl 0)
    cases hb
    rw [free_last, if_neg hx]
    exact hfm
  | @table n frame sub ih =>
    have hp : ¬ ∀ i, ((sub i).free true).unused = true := fun ha =>
      hx ((free_unused_iff _ (page' / span n)).1 (ha (slot n page')) page' ptes rfl hb)
    rw [free_table, if_neg hp]
    unfold frameAt at hfm ⊢
    split at hfm
    · next hl => rw [if_pos hl, hfm]
    · next hl =>
        rw [if_neg hl]
        rw [lastTable, slot_eq_of_div (frameAt_le hfm) hpg] at hb
        exact ih _ (.inl rfl) hfm hb

end MapEntry

end Boron.Mm
