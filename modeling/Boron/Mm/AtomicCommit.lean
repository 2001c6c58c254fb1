import Boron.Mm.CommitAgreement

/-! # Commits and decommits that run out of page tables

`MmCommitVirtualMemory` marks page after page and gives up at the first page table that cannot be
allocated, with the pages before it marked. `MiDecommitVad` leaps over such a page table, and in a
committed VAD the pages below it stay committed. What a call leaves behind is told here for every
choice of page tables that can be allocated (`room`). -/

namespace Boron.Mm

open List Option

namespace UserMemory

variable {T : Type} [DecidableEq T] {p : Port} {s : UserMemory T} {t : T} {room : Nat → Bool}
  {startVa n protection : Nat}

omit [DecidableEq T] in
/-- The flags of the VADs and the entries of all pages are the same; a page table with zero entries is
as good as none. -/
def SameCommitment (p : Port) (s s' : UserMemory T) : Prop :=
  s'.vads = s.vads ∧ ∀ page, s'.tables.view p page = s.tables.view p page

/-- A commit that fails for want of memory changes no page's commitment. -/
def CommitAtomic (p : Port) (s : UserMemory T) (t : T) (room : Nat → Bool)
    (startVa n protection : Nat) : Prop :=
  ∀ s', s.mmCommitVirtualMemory p t room startVa n protection = some (.insufficientMemory, s') →
    SameCommitment p s s'

/-- A decommit that succeeds leaves no page of its range committed. -/
def DecommitComplete (p : Port) (s : UserMemory T) (t : T) (room : Nat → Bool) (startVa n : Nat) :
    Prop :=
  ∀ s', s.mmDecommitVirtualMemory p t room startVa n = some (.success, s') →
    ∀ v ∈ s'.vads, v.Holds startVa n → ∀ page, InRange startVa n page →
      readsCommitted p v.committed (s'.tables.view p page) = false

omit [DecidableEq T] in
/-- If the commit gets to mark pages and does not get all page tables, the pages before the first that
it does not get are marked already. -/
def CommitFits (p : Port) (s : UserMemory T) (room : Nat → Bool) (startVa n protection : Nat) :
    Prop :=
  ∀ v stop, s.Marks p startVa n protection v →
    s.tables.StopsAt p room (startVa / pageSize) n stop → stop < startVa / pageSize + n →
    ∀ page, startVa / pageSize ≤ page → page < stop → s.tables.view p page = committedPte p

omit [DecidableEq T] in
/-- Every page of the range is found if the range is a part of a committed VAD, and no page is whose
marker would be read wrongly. -/
def DecommitFits (p : Port) (s : UserMemory T) (room : Nat → Bool) (startVa n : Nat) : Prop :=
  0 < n → startVa + n * pageSize ≤ p.userSpaceEnd →
    ∀ v ∈ s.vads, v.Holds startVa n → ∀ page, InRange startVa n page →
      if s.tables.Found p room (v.committed && !decide (IsWhole v startVa n)) page then p = .arm
      else v.committed = true → IsWhole v startVa n

/-! ## Commit -/

theorem commitAtomic_iff (hr : RangeOk p startVa n) (hvd : VadsOk p s.vads)
    (hw : s.vadListOwner = none) :
    CommitAtomic p s t room startVa n protection ↔ CommitFits p s room startVa n protection := by
  constructor
  · intro ham v stop hv hp hlt page hlo hh
    obtain ⟨m, hm, hvw⟩ := mmCommitVirtualMemory_marks (t := t) _ hr hvd hw hv hp
    rw [if_neg hlt.ne] at hm
    obtain ⟨-, hsa⟩ := ham _ hm
    rw [← hsa page, hvw, if_pos ⟨hlo, hh⟩]
  · intro hft s' hs'
    by_cases hsm : ∃ v, s.Marks p startVa n protection v
    · obtain ⟨v, hv⟩ := hsm
      obtain ⟨stop, hp⟩ := PageTables.exists_stopsAt p s.tables room (startVa / pageSize) n
      obtain ⟨m, hm, hvw⟩ := mmCommitVirtualMemory_marks (t := t) _ hr hvd hw hv hp
      obtain ⟨hst, rfl⟩ := Prod.mk.inj (some.inj (hm.symm.trans hs'))
      have hlt : stop < startVa / pageSize + n := by
        refine Nat.lt_of_le_of_ne hp.hi fun ha => ?_
        rw [if_pos ha] at hst
        cases hst
      refine ⟨rfl, fun page => (hvw page).trans ?_⟩
      split
      · next hpg => exact (hft v stop hv hp hlt page hpg.1 hpg.2).symm
      · rfl
    · obtain ⟨st, hst, -, hne⟩ := mmCommitVirtualMemory_refused (t := t) room hr hvd hw
        (not_exists.1 hsm)
      exact absurd (Prod.mk.inj (some.inj (hst.symm.trans hs'))).1 hne

/-! ## Decommit -/

omit [DecidableEq T] in
/-- The VAD of the range is the only one to hold it, before the decommit and after it. -/
theorem vad_of_holds {vads : List Vad} {v w : Vad} (hr : RangeOk p startVa n)
    (hvd : VadsOk p vads) (hn : 0 < n) (he : startVa + n * pageSize ≤ p.userSpaceEnd)
    (hv : v ∈ vads) (hh : v.Holds startVa n) (hw : w ∈ vads) (hwh : w.Holds startVa n) : v = w := by
  have hfs := (hr.vadOfRange_iff hvd hn he).2 ⟨hv, hh⟩
  have hsn := (hr.vadOfRange_iff hvd hn he).2 ⟨hw, hwh⟩
  exact some.inj (hfs.symm.trans hsn)

omit [DecidableEq T] in
/-- A page that was found has the marker, and any other has a zero entry. -/
theorem readsCommitted_found {m : PageTables} {page : Nat} {c gen : Bool} :
    readsCommitted p c (if m.Found p room gen page then decommittedPte p
      else m.view p page) = false ↔
      if m.Found p room gen page then p = .arm else c = false := by
  split
  · rw [readsCommitted, isPresent_decommittedPte, Bool.false_or, if_neg (decommittedPte_ne_zero p),
      isCommitted_decommittedPte, decide_eq_false_iff_not, not_not]
  · next hfn =>
      rw [PageTables.view_of_not_hasTable fun hb => hfn (.inl hb), readsCommitted_zero]

theorem decommitComplete_iff (hr : RangeOk p startVa n) (hvd : VadsOk p s.vads)
    (how : s.vadListOwner = none) :
    DecommitComplete p s t room startVa n ↔ DecommitFits p s room startVa n := by
  obtain ⟨st, s', hs, hif, -, hdn⟩ := mmDecommitVirtualMemory_found (t := t) room hr hvd how
  by_cases hsc : st = .success
  · obtain ⟨v, hv, hholds, -, hvd', hvw⟩ := hdn hsc
    obtain ⟨⟨hn, he⟩, -⟩ := hif.1 hsc
    subst hsc
    -- what the VAD of the range has become
    have hfl : ∀ w ∈ s'.vads, w.Holds startVa n →
        w.committed = (v.committed && !decide (IsWhole v startVa n)) := by
      intro w hw hh
      rw [hvd'] at hw
      split at hw
      · next hwl =>
          obtain ⟨u, hu, rfl⟩ := List.mem_map.1 hw
          have huh : u.Holds startVa n := by
            split at hh
            · exact hh
            · exact hh
          obtain rfl := vad_of_holds hr hvd hn he hu huh hv hholds
          rw [if_pos rfl]
          simp [hwl]
      · next hwl =>
          obtain rfl := vad_of_holds hr hvd hn he hw hh hv hholds
          simp [hwl]
    obtain ⟨w, hw, hh⟩ : ∃ w ∈ s'.vads, w.Holds startVa n := by
      rw [hvd']
      split
      · exact ⟨_, List.mem_map_of_mem hv, by split <;> exact hholds⟩
      · exact ⟨v, hv, hholds⟩
    -- the state of one page, after and before
    have hp : ∀ w ∈ s'.vads, w.Holds startVa n → ∀ page, InRange startVa n page →
        (readsCommitted p w.committed (s'.tables.view p page) = false ↔
          if s.tables.Found p room (v.committed && !decide (IsWhole v startVa n)) page then p = .arm
          else v.committed = true → IsWhole v startVa n) := by
      intro w hw hh page hin
      simp only [hvw, hin, true_and]
      rw [readsCommitted_found, hfl w hw hh]
      simp
    constructor
    · intro hc hn he u hu huh page hin
      obtain rfl := vad_of_holds hr hvd hn he hu huh hv hholds
      exact (hp w hw hh page hin).1 (hc s' hs w hw hh page hin)
    · intro hft s'' hs'' w hw hh page hin
      obtain rfl : s' = s'' := (Prod.mk.inj (some.inj (hs.symm.trans hs''))).2
      exact (hp w hw hh page hin).2 (hft hn he v hv hholds page hin)
  · constructor
    · intro _ hn he v hv hholds
      exact absurd (hif.2 ⟨⟨hn, he⟩, v, hv, hholds⟩) hsc
    · intro _ s'' hs''
      exact absurd (Prod.mk.inj (some.inj (hs.symm.trans hs''))).1 hsc

/-- **A commit that fails is undone and a decommit that succeeds is complete** exactly if the page
tables that cannot be allocated allow for it. -/
theorem commit_decommit_atomic_iff (hr : RangeOk p startVa n) (hvads : VadsOk p s.vads)
    (howner : s.vadListOwner = none) :
    CommitAtomic p s t room startVa n protection ∧ DecommitComplete p s t room startVa n ↔
      CommitFits p s room startVa n protection ∧ DecommitFits p s room startVa n :=
  and_congr (commitAtomic_iff hr hvads howner) (decommitComplete_iff hr hvads howner)

/-- A VAD of three pages, of which only the first is in the first page table (of arm). -/
def boundary (committed : Bool) : UserMemory Bool :=
  ⟨[⟨⟨0x3FF000, 3⟩, committed, true, 3, none, 0⟩], ⟨fun _ => none⟩, none⟩

theorem boundary_vadsOk (com : Bool) : VadsOk .arm (boundary com).vads := by
  refine ⟨pairwise_singleton _ _, ?_, ?_, ?_⟩ <;> intro v hv <;>
    obtain rfl := mem_singleton.1 hv
  · show 0x3FF000 % pageSize = 0
    decide
  · exact Nat.succ_pos 2
  · show 0x3FF000 + 3 * pageSize < Port.arm.addresses
    decide

theorem boundary_rangeOk : RangeOk .arm 0x3FF000 2 := ⟨by decide, by decide, by decide⟩

/-- Without room for any page table nothing is marked. -/
theorem commit_decommit_atomic_no_room :
    ((boundary false).mmCommitVirtualMemory .arm true (fun _ => false) 0x3FF000 2 0).map Prod.fst =
        some .insufficientMemory ∧
      CommitAtomic .arm (boundary false) true (fun _ => false) 0x3FF000 2 0 ∧
      DecommitComplete .arm (boundary false) true (fun _ => false) 0x3FF000 2 := by
  refine ⟨by decide +kernel, (commit_decommit_atomic_iff boundary_rangeOk (boundary_vadsOk false)
    rfl).2 ⟨fun v stop _ hst _ page hlo hh => ?_, fun _ _ v hv _ page _ => ?_⟩⟩
  · have hgt := hst.gets (0x3FF000 / pageSize) le_rfl (hlo.trans_lt hh)
    exact absurd hgt (by rintro (hb | hrm) <;> contradiction)
  · obtain rfl := mem_singleton.1 hv
    rw [if_neg (by rintro (hb | hrm) <;> contradiction)]
    exact fun hc => absurd hc Bool.false_ne_true

/-- With room for the first page table only, the first page is left marked by a commit that fails, and
the second committed by a decommit that succeeds. -/
theorem commit_decommit_first_table_only :
    ¬ CommitAtomic .arm (boundary false) true (fun number => number = 0) 0x3FF000 2 0 ∧
      ¬ DecommitComplete .arm (boundary true) true (fun number => number = 0) 0x3FF000 2 := by
  constructor
  · intro ha
    have hrn : ((boundary false).mmCommitVirtualMemory .arm true (fun number => number = 0) 0x3FF000
        2 0).map (fun r => (r.1, r.2.tables.view .arm 0x3FF)) =
          some (.insufficientMemory, committedPte .arm) := by
      decide +kernel
    obtain ⟨⟨st, s'⟩, hs, he⟩ := map_eq_some_iff.1 hrn
    obtain ⟨rfl, hw⟩ := Prod.mk.inj he
    have hz : (boundary false).tables.view .arm 0x3FF = mmBuildZeroPte := rfl
    exact committedPte_ne_zero .arm (hw.symm.trans (((ha s' hs).2 0x3FF).trans hz))
  · intro hc
    have hrn : ((boundary true).mmDecommitVirtualMemory .arm true (fun number => number = 0) 0x3FF000
        2).map (fun r => (r.1, r.2.vads, r.2.tables.view .arm 0x400)) =
          some (.success, (boundary true).vads, mmBuildZeroPte) := by
      decide +kernel
    obtain ⟨⟨st, s'⟩, hs, he⟩ := map_eq_some_iff.1 hrn
    simp only [Prod.mk.injEq] at he
    obtain ⟨rfl, hvd, hw⟩ := he
    have hme : (⟨⟨0x3FF000, 3⟩, true, true, 3, none, 0⟩ : Vad) ∈ s'.vads := by
      rw [hvd]
      exact mem_singleton_self _
    have hholds : (⟨⟨0x3FF000, 3⟩, true, true, 3, none, 0⟩ : Vad).Holds 0x3FF000 2 := by
      show 0x3FF000 ≤ 0x3FF000 ∧ 0x3FF000 + 2 * pageSize ≤ 0x3FF000 + 3 * pageSize
      decide
    have hno := hc s' hs _ hme hholds 0x400 ⟨by decide, by decide⟩
    rw [hw, readsCommitted_zero] at hno
    cases hno

end UserMemory

end Boron.Mm
