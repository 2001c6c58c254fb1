import Boron.Mm.PtFree

/-! # The whole page map, and its teardown (`mm/amd64/ptfree.c`, `mm/teardown.c`)

What `MiFreeUnusedMappingLevelsInCurrentMap` should do to a page map: keep every mapping that is in
use, free no frame twice, and leave no unused table in the range. `unused_tables_freed` says exactly
for which maps and ranges it does. When a process is torn down all its mappings have been zeroed
first, and then no table of the user half is left. -/

namespace Boron.Mm

open MapEntry Function List

namespace PageMap

/-! ## What a page map says -/

def lastTable (m : PageMap) (page : Nat) : Option (Fin 512 → Pte) :=
  (m.top (slot 2 page)).lastTable page

/-- The entry of a page, if its tables are there. -/
def pte (m : PageMap) (page : Nat) : Option Pte :=
  (m.lastTable page).map fun ptes => ptes ⟨page % 512, Nat.mod_lt _ (by decide)⟩

/-- The frame of the table of a level that a page is below. -/
def frameAt (m : PageMap) (l page : Nat) : Option Nat := (m.top (slot 2 page)).frameAt l page

def tables (m : PageMap) : List Nat := (List.finRange 512).flatMap fun i => (m.top i).tables

/-- A present entry of the map names the frame. -/
def Named (m : PageMap) (f : Nat) : Prop :=
  f ∈ m.tables ∨ ∃ page writable isFromPmm, m.pte page = some (.present f writable isFromPmm)

/-- Every table has a frame of its own, which no page is mapped to. -/
structure WellFormed (m : PageMap) : Prop where
  distinct : m.tables.Nodup
  apart : ∀ f ∈ m.tables, ∀ page writable isFromPmm,
    m.pte page ≠ some (.present f writable isFromPmm)

/-- An entry that is neither zero nor the marker of a decommitted page. -/
def Live (e : Pte) : Prop := e ≠ mmBuildZeroPte ∧ e ≠ decommittedPte .amd64

/-- The pages of the user half. -/
def userPages : Nat := 256 * ptesCoveredByPml4

/-- Every mapping that is in use is still there. -/
def KeepsLive (m m' : PageMap) : Prop :=
  ∀ page e, m.pte page = some e → Live e → m'.pte page = some e

/-- No frame is freed twice or still named. -/
def FreedOnce (m' : PageMap) (freed : List Nat) : Prop :=
  freed.Nodup ∧ ∀ f ∈ freed, ¬ m'.Named f

/-- Nothing below the table of level `l` that `page` is below is in use. -/
def Unused (m : PageMap) (l page : Nat) : Prop :=
  ∀ page' ptes, page' / span l = page / span l → m.lastTable page' = some ptes →
    ∀ i, ¬ Live (ptes i)

/-- The table has a page of the range below it. -/
def Touches (startVa sizePages l page : Nat) : Prop :=
  ∃ page', page' / span l = page / span l ∧ startVa / pageSize ≤ page' ∧
    page' < startVa / pageSize + sizePages

/-- The unused tables of the user half that the range touches have been freed. -/
def FreesUnused (m : PageMap) (freed : List Nat) (startVa sizePages : Nat) : Prop :=
  ∀ l page f, m.frameAt l page = some f → page < userPages → Touches startVa sizePages l page →
    m.Unused l page → f ∈ freed

/-- The rounds of the loop over the PML4. -/
def rounds (sizePages : Nat) : Nat := (sizePages + (ptesCoveredByPml4 - 1)) / ptesCoveredByPml4

/-- The loop goes through the PML4 entry that the page is below. -/
def Walked (startVa sizePages page : Nat) : Prop :=
  level4Index startVa ≤ slot 2 page ∧ slot 2 page < level4Index startVa + rounds sizePages

/-! ## The loop -/

/-- Replacing one of the tables. -/
theorem flatMap_update_perm {α β : Type} [DecidableEq α] {l : List α} (hl : l.Nodup) {a : α}
    (ha : a ∈ l) {γ : Type} (t : α → γ) (x : γ) (f : γ → List β) :
    (l.flatMap fun i => f (update t a x i)).Perm (f x ++ (l.erase a).flatMap fun i => f (t i)) := by
  refine ((perm_cons_erase ha).flatMap_right _).trans ?_
  rw [flatMap_cons, update_self]
  refine Perm.append_left _ (Perm.flatMap_left _ fun i hi => ?_)
  rw [update_of_ne fun h => ?_]
  subst h
  exact hl.not_mem_erase hi

theorem tables_update (m : PageMap) (i : Fin 512) (e : MapEntry 2) :
    (⟨update m.top i e⟩ : PageMap).tables.Perm
      (e.tables ++ ((List.finRange 512).erase i).flatMap fun j => (m.top j).tables) :=
  flatMap_update_perm (nodup_finRange 512) (mem_finRange i) m.top e MapEntry.tables

/-- The loop does a round for each of its entries, and no frame gets lost. -/
theorem freeSlots_spec (b : Bool) (k index : Nat) (m : PageMap) (freed : List Nat)
    (h : index + k ≤ 512) :
    ∃ m' freed', freeSlots b k index m freed = some (m', freed') ∧ (∀ i : Fin 512, m'.top i
        = if index ≤ i ∧ i < index + k then ((m.top i).free b).entry else m.top i) ∧
      (freed' ++ m'.tables).Perm (freed ++ m.tables) ∧
      (∀ f, f ∈ freed' ↔ f ∈ freed ∨
        ∃ i : Fin 512, (index ≤ i ∧ i < index + k) ∧ f ∈ ((m.top i).free b).freed) := by
  induction k generalizing index m freed with
  | zero =>
    refine ⟨m, freed, rfl, fun i => ?_, .refl _, fun f => ?_⟩
    · rw [if_neg (by omega)]
    · refine ⟨.inl, fun h => h.elim id ?_⟩
      rintro ⟨i, hi, -⟩
      omega
  | succ k ih =>
    have hx : index < 512 := by omega
    obtain ⟨m', freed', hrn, htp, hp, hme⟩ := ih (index + 1)
      ⟨update m.top ⟨index, hx⟩ ((m.top ⟨index, hx⟩).free b).entry⟩
      (freed ++ ((m.top ⟨index, hx⟩).free b).freed) (by omega)
    dsimp only at htp hme
    refine ⟨m', freed', ?_, fun i => ?_, ?_, fun f => ?_⟩
    · rw [freeSlots, dif_pos hx]
      exact hrn
    · rw [htp]
      by_cases hi : i = ⟨index, hx⟩
      · subst hi
        rw [if_neg (by simp), if_pos (by simp), update_self]
      · rw [update_of_ne hi]
        have hne : (i : Nat) ≠ index := fun h => hi (Fin.ext h)
        refine if_congr ?_ rfl rfl
        omega
    · refine hp.trans ?_
      rw [append_assoc]
      refine Perm.append_left freed ?_
      refine (Perm.append_left _ (tables_update ..)).trans ?_
      rw [← append_assoc]
      refine ((freed_perm (m.top ⟨index, hx⟩) b).append_right _).trans ?_
      exact ((perm_cons_erase (mem_finRange ⟨index, hx⟩)).flatMap_right fun j => (m.top j).tables).symm
    · rw [hme, mem_append, or_assoc]
      refine or_congr_right ?_
      constructor
      · rintro (hf | ⟨i, hi, hf⟩)
        · exact ⟨⟨index, hx⟩, by simp, hf⟩
        · have hne : i ≠ ⟨index, hx⟩ := by
            rintro rfl
            dsimp only at hi
            omega
          rw [update_of_ne hne] at hf
          exact ⟨i, by omega, hf⟩
      · rintro ⟨i, hi, hf⟩
        by_cases hne : i = ⟨index, hx⟩
        · subst hne
          exact .inl hf
        · have : (i : Nat) ≠ index := fun h => hne (Fin.ext h)
          refine .inr ⟨i, by omega, ?_⟩
          rw [update_of_ne hne]
          exact hf

/-- Past the end of the PML4 the loop does not return. -/
theorem freeSlots_none {b : Bool} {k index : Nat} {m : PageMap} {freed : List Nat}
    (hx : index ≤ 512) (h : 512 < index + k) : freeSlots b k index m freed = none := by
  induction k generalizing index m freed with
  | zero => omega
  | succ k ih =>
    unfold freeSlots
    split
    · exact ih (by omega) (by omega)
    · rfl

/-! ## What the call does to the map -/

theorem level4Index_lt (va : Nat) : level4Index va < 512 := Nat.mod_lt _ (by decide)

/-- A call that stays within the PML4, described. -/
structure Frees (m m' : PageMap) (freed : List Nat) (startVa sizePages : Nat) : Prop where
  walked : ∀ page, Walked startVa sizePages page → m'.top (slot 2 page)
    = ((m.top (slot 2 page)).free (decide (level4Index startVa < 256))).entry
  rest : ∀ page, ¬ Walked startVa sizePages page → m'.top (slot 2 page) = m.top (slot 2 page)
  perm : (freed ++ m'.tables).Perm m.tables
  freed : ∀ page, Walked startVa sizePages page → ∀ f,
    f ∈ ((m.top (slot 2 page)).free (decide (level4Index startVa < 256))).freed → f ∈ freed

theorem miFree_frees (m : PageMap) {startVa sizePages : Nat}
    (h : level4Index startVa + rounds sizePages ≤ 512) :
    ∃ m' freed, m.miFreeUnusedMappingLevelsInCurrentMap startVa sizePages = some (m', freed) ∧
      Frees m m' freed startVa sizePages := by
  obtain ⟨m', freed, hrn, htp, hp, hme⟩ :=
    freeSlots_spec (decide (level4Index startVa < 256)) _ _ m [] h
  rw [nil_append] at hp
  refine ⟨m', freed, hrn, ?_, ?_, hp, ?_⟩
  · intro page hpg
    exact (htp _).trans (if_pos hpg)
  · intro page hpg
    exact (htp _).trans (if_neg hpg)
  · intro page hpg f hf
    exact (hme f).2 (.inr ⟨_, hpg, hf⟩)

namespace Frees

variable {m m' : PageMap} {freed : List Nat} {startVa sizePages : Nat}
  (h : Frees m m' freed startVa sizePages)

include h

/-- The tables of the last level that are left were there before. -/
theorem lastTable_of {page : Nat} {ptes : Fin 512 → Pte} (hb : m'.lastTable page = some ptes) :
    m.lastTable page = some ptes ∧ (Walked startVa sizePages page → ¬ Uniform ptes) := by
  unfold lastTable at hb ⊢
  by_cases hw : Walked startVa sizePages page
  · rw [h.walked page hw] at hb
    have := lastTable_of_free (.inr (by decide)) hb
    exact ⟨this.1, fun _ => this.2⟩
  · rw [h.rest page hw] at hb
    exact ⟨hb, fun hw' => (hw hw').elim⟩

/-- The tables of the last level that are not uniform, or not gone through, are left. -/
theorem lastTable_keep {page : Nat} {ptes : Fin 512 → Pte} (hb : m.lastTable page = some ptes)
    (hp : Walked startVa sizePages page → ¬ Uniform ptes) : m'.lastTable page = some ptes := by
  unfold lastTable at hb ⊢
  by_cases hw : Walked startVa sizePages page
  · rw [h.walked page hw]
    exact lastTable_free (.inr (by decide)) hb (hp hw)
  · rw [h.rest page hw]
    exact hb

/-- No frame is freed twice, and none that is freed is named any more. -/
theorem freedOnce (hm : m.WellFormed) : FreedOnce m' freed := by
  have hnd : (freed ++ m'.tables).Nodup := h.perm.nodup_iff.2 hm.distinct
  refine ⟨hnd.of_append_left, fun f hf => ?_⟩
  rintro (hb | ⟨page, writable, isFromPmm, hp⟩)
  · exact disjoint_of_nodup_append hnd hf hb
  · have hme : f ∈ m.tables := h.perm.subset (mem_append_left _ hf)
    obtain ⟨ptes, hb, he⟩ := Option.map_eq_some_iff.1 hp
    refine hm.apart f hme page writable isFromPmm ?_
    rw [pte, (h.lastTable_of hb).1, Option.map_some, he]

end Frees

/-! ## When it does what it should -/

/-- No table of the last level that the call goes through is full and in use. -/
def NoneFull (m : PageMap) (startVa sizePages : Nat) : Prop :=
  ∀ page ptes, Walked startVa sizePages page → m.lastTable page = some ptes →
    (∃ i, Live (ptes i)) → ∃ i, ptes i = mmBuildZeroPte

/-- The unused tables of the user half that the range touches are gone through, and no table of the
last level below them has both zero and decommitted entries. -/
def NoneMixed (m : PageMap) (startVa sizePages : Nat) : Prop :=
  ∀ l page f, m.frameAt l page = some f → page < userPages → Touches startVa sizePages l page →
    m.Unused l page → Walked startVa sizePages page ∧
      ∀ page' ptes, page' / span l = page / span l → m.lastTable page' = some ptes → Uniform ptes

variable {page : Nat}

theorem lastTable_congr {n : Nat} {e : MapEntry n} {page' : Nat}
    (h : page' / span 0 = page / span 0) : e.lastTable page' = e.lastTable page := by
  induction e with
  | absent word => rfl
  | last frame ptes => rfl
  | @table n frame sub ih =>
    unfold MapEntry.lastTable
    rw [slot_eq_of_div (Nat.zero_le n) h]
    exact ih _

theorem pte_of_lastTable {m : PageMap} {ptes : Fin 512 → Pte}
    (h : m.lastTable page = some ptes) (i : Fin 512) :
    ∃ page', page' / span 0 = page / span 0 ∧ m.pte page' = some (ptes i) := by
  have hdv : (page / 512 * 512 + i) / span 0 = page / span 0 := by
    simp only [span]
    omega
  refine ⟨page / 512 * 512 + i, hdv, ?_⟩
  have hb : m.lastTable (page / 512 * 512 + i) = some ptes := by
    rw [lastTable, slot_eq_of_div (Nat.zero_le 2) hdv, lastTable_congr hdv]
    exact h
  rw [pte, hb, Option.map_some]
  congr 2
  refine Fin.ext ?_
  simp only
  omega

theorem walked_congr {startVa sizePages l page' : Nat} (hl : l ≤ 2) (h : page' / span l = page / span l) :
    Walked startVa sizePages page' ↔ Walked startVa sizePages page := by
  unfold Walked
  rw [slot_eq_of_div hl h]

namespace Frees

variable {m m' : PageMap} {freed : List Nat} {startVa sizePages : Nat}
  (h : Frees m m' freed startVa sizePages)

include h

/-- What is in use stays exactly when no full table is in use. -/
theorem keepsLive_iff : KeepsLive m m' ↔ m.NoneFull startVa sizePages := by
  constructor
  · rintro hks page ptes hw hb ⟨i, hlv⟩
    by_contra hnn
    obtain ⟨page', hpg, hp⟩ := pte_of_lastTable hb i
    obtain ⟨ptes', hb', -⟩ := Option.map_eq_some_iff.1 (hks page' _ hp hlv)
    obtain ⟨hold, hx⟩ := h.lastTable_of hb'
    have hsm : ptes' = ptes := by
      rw [lastTable, slot_eq_of_div (Nat.zero_le 2) hpg, lastTable_congr hpg, ← lastTable, hb] at hold
      exact (Option.some.inj hold).symm
    subst hsm
    exact hx ((walked_congr (Nat.zero_le 2) hpg).2 hw) (.inr fun j hj => hnn ⟨j, hj⟩)
  · intro hfl page e hp hlv
    obtain ⟨ptes, hb, rfl⟩ := Option.map_eq_some_iff.1 hp
    have hkp : m'.lastTable page = some ptes := by
      refine h.lastTable_keep hb fun hw => ?_
      obtain ⟨j, hj⟩ := hfl page ptes hw hb ⟨_, hlv⟩
      rintro (hz | hnz)
      · exact hlv.1 (hz _)
      · exact hnz j hj
    rw [pte, hkp, Option.map_some]

theorem freesUnused_iff (hm : m.WellFormed) :
    FreesUnused m freed startVa sizePages ↔ m.NoneMixed startVa sizePages := by
  have hnd : (freed ++ m'.tables).Nodup := h.perm.nodup_iff.2 hm.distinct
  -- A table that is still in the tree has not been freed.
  have hgn : ∀ l page f, f ∈ freed → m'.frameAt l page ≠ some f := by
    intro l page f hf hfr
    refine disjoint_of_nodup_append hnd hf ?_
    exact mem_flatMap.2 ⟨slot 2 page, mem_finRange _, mem_tables_of_frameAt hfr⟩
  constructor
  · intro hfs l page f hfr hu hc hun
    have hf := hfs l page f hfr hu hc hun
    constructor
    · by_contra hw
      refine hgn l page f hf ?_
      rw [frameAt, h.rest page hw]
      exact hfr
    · intro page' ptes hp hb
      by_contra hx
      have hl : l ≤ 2 := frameAt_le hfr
      rw [lastTable, slot_eq_of_div hl hp] at hb
      refine hgn l page f hf ?_
      by_cases hw : Walked startVa sizePages page
      · rw [frameAt, h.walked page hw]
        exact frameAt_free (.inr (by decide)) hfr hp hb hx
      · rw [frameAt, h.rest page hw]
        exact hfr
  · intro hx l page f hfr hu hc hun
    obtain ⟨hw, huf⟩ := hx l page f hfr hu hc hun
    have hl : l ≤ 2 := frameAt_le hfr
    have hst : level4Index startVa < 256 := by
      have hsl : (slot 2 page : Nat) < 256 := by
        have : page / span 2 < 256 := Nat.div_lt_of_lt_mul (by rw [Nat.mul_comm]; exact hu)
        exact Nat.lt_of_le_of_lt (Nat.mod_le _ _) this
      exact Nat.lt_of_le_of_lt hw.1 hsl
    refine h.freed page hw f ?_
    rw [decide_eq_true hst]
    refine mem_freed hfr fun page' ptes hp hb => huf page' ptes hp ?_
    rw [lastTable, slot_eq_of_div hl hp]
    exact hb

end Frees

/-- The call returns, keeps what is in use, frees no frame twice and frees what is unused. -/
def FreesRight (m : PageMap) (startVa sizePages : Nat) : Prop :=
  ∃ m' freed, m.miFreeUnusedMappingLevelsInCurrentMap startVa sizePages = some (m', freed) ∧
    KeepsLive m m' ∧ FreedOnce m' freed ∧ FreesUnused m freed startVa sizePages

theorem freesRight_iff {m : PageMap} (hm : m.WellFormed) (startVa sizePages : Nat) :
    m.FreesRight startVa sizePages ↔ level4Index startVa + rounds sizePages ≤ 512 ∧
      m.NoneFull startVa sizePages ∧ m.NoneMixed startVa sizePages := by
  by_cases he : level4Index startVa + rounds sizePages ≤ 512
  · obtain ⟨m', freed, hrn, hfr⟩ := m.miFree_frees he
    unfold FreesRight
    rw [hrn]
    constructor
    · rintro ⟨m₁, freed₁, heq, hp, -, hu⟩
      cases heq
      exact ⟨he, hfr.keepsLive_iff.1 hp, (hfr.freesUnused_iff hm).1 hu⟩
    · rintro ⟨-, hfl, hx⟩
      exact ⟨m', freed, rfl, hfr.keepsLive_iff.2 hfl, hfr.freedOnce hm, (hfr.freesUnused_iff hm).2 hx⟩
  · constructor
    · rintro ⟨m', freed, hrn, -⟩
      have hnn : m.miFreeUnusedMappingLevelsInCurrentMap startVa sizePages = none :=
        freeSlots_none (Nat.le_of_lt (level4Index_lt startVa)) (Nat.lt_of_not_le he)
      rw [hnn] at hrn
      cases hrn
    · exact fun h => (he h.1).elim

end PageMap

/-! ## Zeroing the entries of a VAD -/

/-- `*Pte = NewPte` for the entry of a page, where there is one. -/
def MapEntry.write (x : Pte) (page : Nat) : {n : Nat} → MapEntry n → MapEntry n
  | _, .absent word => .absent word
  | _, .last frame ptes =>
    .last frame (update ptes ⟨page % 512, Nat.mod_lt _ (by decide)⟩ x)
  | n + 1, .table frame sub =>
    .table frame (update sub (slot n page) ((sub (slot n page)).write x page))

namespace PageMap

def write (m : PageMap) (page : Nat) (x : Pte) : PageMap :=
  ⟨update m.top (slot 2 page) ((m.top (slot 2 page)).write x page)⟩

/-- The loops of `MiDecommitVad` and `MiCleanUpVad`, with the pages left: every entry is checked and
zeroed, and a page of entries that is not there is skipped. `extra` is what a skip counts for on top
of the pages that are skipped. -/
def scrub (extra : Nat) (allowed : Pte → Bool) :
    (fuel left page : Nat) → PageMap → Option PageMap
  | 0, _, _, _ => none
  | fuel + 1, left, page, m =>
    if left = 0 then some m
    else
      match m.pte page with
      | none =>
        let next := (page / 512 + 1) * 512
        scrub extra allowed fuel (left - (next - page + extra)) next m
      | some e =>
        if allowed e then scrub extra allowed fuel (left - 1) (page + 1) (m.write page mmBuildZeroPte)
        else none

/-- What `MiDecommitVad` asserts of an entry. -/
def mayDecommit (e : Pte) : Bool :=
  mmIsPresentPte e || e = mmBuildZeroPte || mmIsCommittedPte .amd64 e ||
    mmIsDecommittedPte .amd64 e

/-- `MiDecommitVad` on a whole VAD, without `SetDecommittedPTE`. -/
def miDecommitVad (m : PageMap) (v : AddressNode) : Option PageMap :=
  scrub 0 mayDecommit (v.size + 1) v.size (v.startVa / pageSize) m

/-- `MiCleanUpVad`, whose `continue` also counts the page that the loop header adds. -/
def miCleanUpVad (m : PageMap) (v : AddressNode) : Option PageMap :=
  (scrub 1 (fun e => !mmIsPresentPte e) (v.size + 1) v.size (v.startVa / pageSize) m).bind fun m =>
    (m.miFreeUnusedMappingLevelsInCurrentMap v.startVa v.size).map Prod.fst

/-- `MmTearDownProcess`, with the VADs in the order of the tree. -/
def mmTearDownProcess (m : PageMap) (vads : List AddressNode) : Option PageMap :=
  (vads.foldlM (fun (m : PageMap) v => (m.miDecommitVad v).bind fun m => m.miCleanUpVad v) m).bind fun m =>
    (m.miFreeUnusedMappingLevelsInCurrentMap 0 ((Port.amd64.userSpaceEnd + 1) / 4096)).map Prod.fst

end PageMap

namespace MapEntry

/-- Two pages share a table of the last level below an entry when they agree on the indices in
between. -/
theorem lastTable_write {n : Nat} (e : MapEntry n) (x : Pte) (page q : Nat) :
    (e.write x page).lastTable q = if q / 512 % 512 ^ n = page / 512 % 512 ^ n then
          (e.lastTable q).map fun ptes =>
            update ptes ⟨page % 512, Nat.mod_lt _ (by decide)⟩ x
        else e.lastTable q := by
  induction e with
  | absent word => split <;> rfl
  | last frame ptes =>
    rw [if_pos (by rw [Nat.pow_zero, Nat.mod_one, Nat.mod_one])]
    rfl
  | @table n frame sub ih =>
    have hsl : ∀ k, k / 512 % 512 ^ (n + 1) = k / 512 % 512 ^ n + 512 ^ n * (slot n k : Nat) := by
      intro k
      have hdv : k / 512 / 512 ^ n = k / span n := by
        rw [Nat.div_div_eq_div_mul, span, Nat.pow_succ']
      rw [Nat.mod_pow_succ, hdv]
      rfl
    have hw : ∀ k, k / 512 % 512 ^ n < 512 ^ n := fun k => Nat.mod_lt _ (Nat.pow_pos (by decide))
    have hsm : q / 512 % 512 ^ (n + 1) = page / 512 % 512 ^ (n + 1) ↔
        slot n q = slot n page ∧ q / 512 % 512 ^ n = page / 512 % 512 ^ n := by
      rw [hsl, hsl, Fin.ext_iff]
      constructor
      · intro h
        have hh := congrArg (· / 512 ^ n) h
        simp only [Nat.add_mul_div_left _ _ (Nat.pow_pos (by decide : 0 < 512)),
          Nat.div_eq_of_lt (hw _), Nat.zero_add] at hh
        exact ⟨hh, by rw [hh] at h; omega⟩
      · rintro ⟨hh, hsml⟩
        rw [hh, hsml]
    simp only [write, lastTable]
    by_cases hs : slot n q = slot n page
    · rw [hs, update_self, ih]
      simp only [hsm, hs, true_and]
    · rw [update_of_ne hs, if_neg fun h => hs (hsm.1 h).1]

end MapEntry

namespace PageMap

variable {page : Nat}

/-- Writing an entry changes that page, where it has a table. -/
theorem pte_write (m : PageMap) (x : Pte) {q : Nat} (hpg : page < span 3) (hq : q < span 3) :
    (m.write page x).pte q = if q = page then (m.pte q).map fun _ => x else m.pte q := by
  have hp : span 3 = 68719476736 ∧ span 2 = 134217728 := by decide
  rw [hp.1] at hpg hq
  unfold pte lastTable write
  by_cases hs : slot 2 q = slot 2 page
  · have hsl : q / 134217728 % 512 = page / 134217728 % 512 := by
      have hvl : q / span 2 % 512 = page / span 2 % 512 := Fin.ext_iff.1 hs
      rwa [hp.2] at hvl
    dsimp only
    rw [hs, update_self, lastTable_write, ← hs]
    by_cases hw : q / 512 % 512 ^ 2 = page / 512 % 512 ^ 2
    · rw [if_pos hw, Option.map_map]
      by_cases heq : q = page
      · rw [if_pos heq, Option.map_map]
        congr 1
        funext ptes
        simp [heq]
      · rw [if_neg heq]
        congr 1
        funext ptes
        have hne : q % 512 ≠ page % 512 := by omega
        simp [hne]
    · rw [if_neg hw, if_neg (by rintro rfl; exact hw rfl)]
  · dsimp only
    rw [update_of_ne hs, if_neg (by rintro rfl; exact hs rfl)]

/-- The loop zeroes pages of its range only and, if a skip counts right, all of them. -/
theorem scrub_spec (extra : Nat) (alw : Pte → Bool) (fuel left page : Nat) (m : PageMap)
    (hfl : left < fuel) (hen : page + left ≤ span 3)
    (hal : ∀ q e, page ≤ q → q < page + left → m.pte q = some e → alw e = true) :
    ∃ m', scrub extra alw fuel left page m = some m' ∧ (∀ q, q < span 3 → m'.pte q = m.pte q ∨
        (page ≤ q ∧ q < page + left) ∧ m'.pte q = (m.pte q).map fun _ => mmBuildZeroPte) ∧
      (extra = 0 → ∀ q, page ≤ q → q < page + left →
        m'.pte q = (m.pte q).map fun _ => mmBuildZeroPte) := by
  induction fuel generalizing left page m with
  | zero => omega
  | succ fuel ih =>
    unfold scrub
    by_cases hlf : left = 0
    · rw [if_pos hlf]
      exact ⟨m, rfl, fun q _ => .inl rfl, fun _ q _ _ => by omega⟩
    rw [if_neg hlf]
    cases hp : m.pte page with
    | none =>
      -- The pages that are skipped have no entry.
      have hsk : ∀ q, page ≤ q → q < (page / 512 + 1) * 512 → m.pte q = none := by
        intro q hlw hh
        have hdv : q / span 0 = page / span 0 := by
          simp only [span]
          omega
        have hb := Option.map_eq_none_iff.1 hp
        rw [pte, lastTable, slot_eq_of_div (Nat.zero_le 2) hdv, lastTable_congr hdv, ← lastTable, hb]
        rfl
      by_cases hls : left ≤ (page / 512 + 1) * 512 - page + extra
      · have hz : left - ((page / 512 + 1) * 512 - page + extra) = 0 := by omega
        refine ⟨m, ?_, fun q _ => .inl rfl, fun he q hlw hh => ?_⟩
        · obtain ⟨k, rfl⟩ : ∃ k, fuel = k + 1 := ⟨fuel - 1, by omega⟩
          dsimp only
          rw [hz, scrub, if_pos rfl]
        · rw [hsk q hlw (by omega)]
          rfl
      · obtain ⟨m', hrn, hso, ha⟩ := ih
          (left - ((page / 512 + 1) * 512 - page + extra)) ((page / 512 + 1) * 512) m
          (by omega) (by omega) fun q e hlw hh => hal q e (by omega) (by omega)
        refine ⟨m', hrn, fun q hq => ?_, fun he q hlw hh => ?_⟩
        · obtain hsm | ⟨hin, hzr⟩ := hso q hq
          · exact .inl hsm
          · exact .inr ⟨by omega, hzr⟩
        · by_cases hq : q < (page / 512 + 1) * 512
          · obtain hsm | ⟨hin, -⟩ := hso q (by omega)
            · rw [hsm, hsk q hlw hq]
              rfl
            · omega
          · exact ha he q (by omega) (by omega)
    | some e =>
      have hw : ∀ q, q < span 3 → (m.write page mmBuildZeroPte).pte q
          = if q = page then (m.pte q).map fun _ => mmBuildZeroPte else m.pte q := fun q hq =>
        m.pte_write mmBuildZeroPte (by omega) hq
      obtain ⟨m', hrn, hso, ha⟩ := ih (left - 1) (page + 1)
        (m.write page mmBuildZeroPte) (by omega) (by omega) fun q e hlw hh hq => by
          rw [hw q (by omega), if_neg (by omega)] at hq
          exact hal q e (by omega) (by omega) hq
      refine ⟨m', ?_, fun q hq => ?_, fun he q hlw hh => ?_⟩
      · dsimp only
        rw [if_pos (hal page e (Nat.le_refl _) (by omega) hp)]
        exact hrn
      · obtain hsm | ⟨hin, hzr⟩ := hso q hq
        · rw [hw q hq] at hsm
          split at hsm
          · next heq => exact .inr ⟨by omega, hsm⟩
          · exact .inl hsm
        · rw [hw q hq, if_neg (by omega)] at hzr
          exact .inr ⟨by omega, hzr⟩
      · by_cases heq : q = page
        · obtain hsm | ⟨hin, -⟩ := hso q (by omega)
          · rw [hsm, hw q (by omega), if_pos heq]
          · omega
        · rw [ha he q (by omega) (by omega), hw q (by omega), if_neg heq]

/-! ## Teardown -/

/-- The page is in the VAD. -/
def InVad (v : AddressNode) (page : Nat) : Prop :=
  v.startVa / pageSize ≤ page ∧ page < v.startVa / pageSize + v.size

/-- Every entry of the user half that is not zero is of a kind that `MiDecommitVad` knows, and is in
one of the VADs. -/
def CoveredBy (m : PageMap) (vads : List AddressNode) : Prop :=
  ∀ page e, page < userPages → m.pte page = some e → e ≠ mmBuildZeroPte →
    mayDecommit e = true ∧ ∃ v ∈ vads, InVad v page

/-- The VAD is in the user half. -/
def InUserHalf (v : AddressNode) : Prop := v.startVa / pageSize + v.size ≤ userPages

theorem userPages_le : userPages ≤ span 3 := by decide

theorem mayDecommit_zero : mayDecommit mmBuildZeroPte = true := rfl

/-- A call on a range of the user half returns, and brings no entry about. -/
theorem miFree_user (m : PageMap) {startVa sizePages : Nat}
    (h : startVa / pageSize + sizePages ≤ userPages) :
    ∃ m' freed, m.miFreeUnusedMappingLevelsInCurrentMap startVa sizePages = some (m', freed) ∧
      Frees m m' freed startVa sizePages ∧
      ∀ page e, m'.pte page = some e → m.pte page = some e := by
  have he : level4Index startVa + rounds sizePages ≤ 512 := by
    unfold level4Index rounds ptesCoveredByPml4
    simp only [userPages, ptesCoveredByPml4] at h
    generalize startVa / pageSize = first at h ⊢
    omega
  obtain ⟨m', freed, hrn, hfr⟩ := m.miFree_frees he
  refine ⟨m', freed, hrn, hfr, fun page e hp => ?_⟩
  obtain ⟨ptes, hb, rfl⟩ := Option.map_eq_some_iff.1 hp
  rw [pte, (hfr.lastTable_of hb).1, Option.map_some]

variable {vads : List AddressNode}

theorem vad_gone {m : PageMap} {v : AddressNode} (hv : InUserHalf v) (hm : m.CoveredBy (v :: vads)) :
    ∃ m', ((m.miDecommitVad v).bind fun m => m.miCleanUpVad v) = some m' ∧ m'.CoveredBy vads := by
  have hsp := userPages_le
  unfold InUserHalf at hv
  obtain ⟨m₁, hrn₁, hso₁, ha₁⟩ := scrub_spec 0 mayDecommit (v.size + 1) v.size
    (v.startVa / pageSize) m (by omega) (by omega) fun q e hlw hh hp => by
      by_cases hz : e = mmBuildZeroPte
      · rw [hz, mayDecommit_zero]
      · exact (hm q e (by omega) hp hz).1
  have hz₁ : ∀ q e, InVad v q → m₁.pte q = some e → e = mmBuildZeroPte := by
    intro q e hq hp
    rw [ha₁ rfl q hq.1 hq.2] at hp
    obtain ⟨-, -, rfl⟩ := Option.map_eq_some_iff.1 hp
    rfl
  obtain ⟨m₂, hrn₂, hso₂, -⟩ := scrub_spec 1 (fun e => !mmIsPresentPte e) (v.size + 1) v.size
    (v.startVa / pageSize) m₁ (by omega) (by omega) fun q e hlw hh hp => by
      rw [hz₁ q e ⟨hlw, hh⟩ hp]
      rfl
  obtain ⟨m₃, freed, hrn₃, -, hkp₃⟩ := m₂.miFree_user hv
  refine ⟨m₃, ?_, fun page e hpg hp hne => ?_⟩
  · rw [miDecommitVad, hrn₁, Option.bind_some, miCleanUpVad, hrn₂, Option.bind_some, hrn₃,
      Option.map_some]
  · have hp₂ := hkp₃ page e hp
    -- Neither loop has written the entry, which is not zero.
    have hp₁ : m₁.pte page = some e := by
      obtain hsm | ⟨-, hzr⟩ := hso₂ page (by omega)
      · rw [← hsm, hp₂]
      · rw [hzr] at hp₂
        obtain ⟨-, -, rfl⟩ := Option.map_eq_some_iff.1 hp₂
        exact (hne rfl).elim
    have hp₀ : m.pte page = some e := by
      obtain hsm | ⟨-, hzr⟩ := hso₁ page (by omega)
      · rw [← hsm, hp₁]
      · rw [hzr] at hp₁
        obtain ⟨-, -, rfl⟩ := Option.map_eq_some_iff.1 hp₁
        exact (hne rfl).elim
    obtain ⟨hkn, w, hw, hin⟩ := hm page e hpg hp₀ hne
    refine ⟨hkn, w, ?_, hin⟩
    obtain rfl | hw := mem_cons.1 hw
    · exact (hne (hz₁ page e hin hp₁)).elim
    · exact hw

theorem vads_gone {m : PageMap} (hv : ∀ v ∈ vads, InUserHalf v) (hm : m.CoveredBy vads) :
    ∃ m', vads.foldlM (fun (m : PageMap) v => (m.miDecommitVad v).bind fun m => m.miCleanUpVad v) m
      = some m' ∧ m'.CoveredBy [] := by
  induction vads generalizing m with
  | nil => exact ⟨m, rfl, hm⟩
  | cons v vads ih =>
    obtain ⟨m₁, hrn₁, hm₁⟩ := vad_gone (hv v mem_cons_self) hm
    obtain ⟨m', hrn, hm'⟩ := ih (fun w hw => hv w (mem_cons_of_mem _ hw)) hm₁
    refine ⟨m', ?_, hm'⟩
    rw [foldlM_cons, hrn₁]
    exact hrn

theorem isPresent_of_unused {n : Nat} {e : MapEntry n} (h : (e.free true).unused = true) :
    (e.free true).entry.isPresent = false := by
  obtain ⟨word, hw⟩ := absent_of_unused h
  rw [hw]
  rfl

theorem teardown_leaves_nothing {m : PageMap} (hv : ∀ v ∈ vads, InUserHalf v) (hm : m.CoveredBy vads) :
    ∃ m', m.mmTearDownProcess vads = some m' ∧
      ∀ i : Fin 512, (i : Nat) < 256 → (m'.top i).isPresent = false := by
  obtain ⟨m₁, hrn₁, hm₁⟩ := vads_gone hv hm
  obtain ⟨m', freed, hrn, hfr, -⟩ :=
    m₁.miFree_user (show 0 / pageSize + (Port.amd64.userSpaceEnd + 1) / 4096 ≤ userPages by decide)
  refine ⟨m', by rw [mmTearDownProcess, hrn₁, Option.bind_some, hrn, Option.map_some], ?_⟩
  intro i hi
  have hsp : span 2 = ptesCoveredByPml4 := by decide
  have hsl : slot 2 (i * span 2) = i := by
    refine Fin.ext ?_
    rw [slot]
    simp only [Nat.mul_div_cancel _ (span_pos 2)]
    exact Nat.mod_eq_of_lt i.isLt
  have hw : Walked 0 ((Port.amd64.userSpaceEnd + 1) / 4096) (i * span 2) := by
    rw [Walked, hsl]
    exact ⟨Nat.zero_le _, hi⟩
  have htp := hfr.walked _ hw
  rw [hsl] at htp
  rw [htp]
  refine isPresent_of_unused ((free_unused_iff _ i).2 fun page ptes hpg hb => .inl fun j => ?_)
  have hsl' : slot 2 page = i := by
    refine Fin.ext ?_
    rw [slot]
    simp only [hpg]
    exact Nat.mod_eq_of_lt i.isLt
  rw [← hsl'] at hb
  obtain ⟨page', hdv, hp⟩ := pte_of_lastTable hb j
  have hpg' : page' / span 2 = i := (div_span_mono (Nat.zero_le 2) hdv).trans hpg
  have hu : page' < userPages := by
    rw [hsp, Nat.div_eq_iff (by decide)] at hpg'
    unfold userPages ptesCoveredByPml4 at *
    omega
  by_contra hne
  obtain ⟨-, v, hv, -⟩ := hm₁ page' _ hu hp hne
  cases hv

/-- An entry in the first place of a table. -/
def only {n : Nat} (e : MapEntry n) (i : Fin 512) : MapEntry n := if i = 0 then e else .absent 0

/-- The map whose only table of the last level is the first one. -/
def oneTable (ptes : Fin 512 → Pte) : PageMap :=
  ⟨only (.table 1 (only (.table 2 (only (.last 3 ptes)))))⟩

theorem flatMap_only {n : Nat} (e : MapEntry n) :
    ((List.finRange 512).flatMap fun i => (only e i).tables) = e.tables := by
  rw [finRange_succ, flatMap_cons, flatMap_map]
  have hrs : ((List.finRange 511).flatMap fun i => (only e (Fin.succ i)).tables) = [] :=
    flatMap_eq_nil_iff.2 fun i _ => by rw [only, if_neg (Fin.succ_ne_zero i)]; rfl
  rw [hrs, append_nil, only, if_pos rfl]

theorem tables_oneTable (ptes : Fin 512 → Pte) : (oneTable ptes).tables = [1, 2, 3] := by
  rw [tables, oneTable]
  rw [flatMap_only, MapEntry.tables, flatMap_only, MapEntry.tables, flatMap_only, MapEntry.tables]

variable {ptes : Fin 512 → Pte}

theorem lastTable_oneTable {ptes' : Fin 512 → Pte}
    (h : (oneTable ptes).lastTable page = some ptes') : ptes' = ptes := by
  unfold lastTable oneTable only at h
  dsimp only at h
  split at h
  · unfold MapEntry.lastTable at h
    dsimp only at h
    split at h
    · unfold MapEntry.lastTable at h
      dsimp only at h
      split at h
      · exact (Option.some.inj h).symm
      · cases h
    · cases h
  · cases h

theorem wellFormed_oneTable (h : ∀ i pfn wri ifp, ptes i = .present pfn wri ifp → 3 < pfn) :
    (oneTable ptes).WellFormed where
  distinct := by
    rw [tables_oneTable]
    decide
  apart f hf page wri ifp hp := by
    rw [tables_oneTable] at hf
    obtain ⟨ptes', hb, he⟩ := Option.map_eq_some_iff.1 hp
    rw [lastTable_oneTable hb] at he
    have := h _ _ _ _ he
    simp only [mem_cons, not_mem_nil, or_false] at hf
    omega

/-- A table that has not been used yet. -/
def noneMapped : Fin 512 → Pte := fun _ => mmBuildZeroPte

/-- A table with one mapped page. -/
def oneMapped : Fin 512 → Pte := update noneMapped 0 (.present 4 true true)

theorem slot_of_frameAt_oneTable {l f : Nat}
    (h : (oneTable ptes).frameAt l page = some f) : slot 2 page = 0 := by
  by_contra hne
  rw [frameAt, oneTable] at h
  dsimp only at h
  rw [only, if_neg hne] at h
  cases h

/-- A table of which every page is mapped. -/
def allMapped : Fin 512 → Pte := fun i => .present (4 + i) true true

theorem wellFormed_allMapped : (oneTable allMapped).WellFormed :=
  wellFormed_oneTable fun i pfn wri ifp h => by
    cases h
    omega

end PageMap

end Boron.Mm
