import Boron.Mm.CommitLoops

/-! # Commitment of pages, over every run

The history of a process' memory keeps, next to the memory, what was decided last about each page: a
commit or a decommit, at first the flag its VAD was reserved with. In every run in which no step meets
a marker that its port reads wrongly, the three services agree with these decisions.

What can go wrong is told by `Calm`: on amd64 and i386 each of `MmIsCommittedPte` and
`MmIsDecommittedPte` tests the bit of the other, and on every port a fault on a page with a decommit
marker keeps the mutex of the VAD list. -/

namespace Boron.Mm

open List Option

variable {T : Type} {p : Port}

/-! ## VADs -/

def Vad.covers (v : Vad) (va : Nat) : Prop := v.startVa ≤ va ∧ va < v.node.limit

/-- A VAD list as the reservation of memory keeps it. -/
structure VadsOk (p : Port) (vads : List Vad) : Prop where
  apart : vads.Pairwise fun v w => v.node.limit ≤ w.startVa
  aligned : ∀ v ∈ vads, v.startVa % pageSize = 0
  nonempty : ∀ v ∈ vads, 0 < v.node.size
  bounded : ∀ v ∈ vads, v.node.limit < p.addresses

namespace VadsOk

variable {vads : List Vad} {v w : Vad} {va startVa n : Nat}

theorem lookUp_iff (h : VadsOk p vads) :
    p.mmLookUpVadByAddress vads va = some v ↔ v ∈ vads ∧ v.covers va := by
  have he : ∀ v ∈ vads, p.add v.startVa (p.mul v.node.size pageSize) = v.node.limit := by
    intro v hv
    have hb := h.bounded v hv
    have hlm : v.startVa + v.node.size * pageSize = v.node.limit := rfl
    rw [Port.mul_eq (by omega), Port.add_eq (by omega), hlm]
  rw [Port.mmLookUpVadByAddress, filter_eq_some_iff, map_eq_some_iff]
  constructor
  · rintro ⟨⟨c, hc, rfl⟩, hlt⟩
    obtain ⟨htree, hle⟩ := lookUpApproximate_eq_some hc
    have hme : c.entry ∈ vads := htree ▸ by simp [Cursor.toTree]
    exact ⟨hme, hle, he _ hme ▸ of_decide_eq_true hlt⟩
  · rintro ⟨hme, hle, hlt⟩
    refine ⟨?_, decide_eq_true (he v hme ▸ hlt)⟩
    obtain ⟨l, r, rfl⟩ := append_of_mem hme
    obtain ⟨-, hvr, hlv⟩ := pairwise_append.1 h.apart
    refine ⟨_, lookUpApproximate_between (fun u hu => ?_) hle fun u hu => ?_, rfl⟩
    · have hu' : u.node.limit ≤ v.startVa := hlv u hu v (by simp)
      have : u.startVa ≤ u.node.limit := Nat.le_add_right _ _
      omega
    · exact hlt.trans_le ((pairwise_cons.1 hvr).1 u hu)

theorem eq_of_covers (h : VadsOk p vads) (hv : v ∈ vads) (hw : w ∈ vads) (hva : v.covers va)
    (hwa : w.covers va) : v = w :=
  some.inj ((h.lookUp_iff.2 ⟨hv, hva⟩).symm.trans (h.lookUp_iff.2 ⟨hw, hwa⟩))

theorem covers_startVa (h : VadsOk p vads) (hv : v ∈ vads) : v.covers v.startVa := by
  refine ⟨le_rfl, ?_⟩
  have hpos := Nat.mul_pos (h.nonempty v hv) (show 0 < pageSize by decide)
  have hlm : v.node.limit = v.startVa + v.node.size * pageSize := rfl
  omega

theorem eq_of_startVa (h : VadsOk p vads) (hv : v ∈ vads) (hw : w ∈ vads)
    (heq : v.startVa = w.startVa) : v = w :=
  h.eq_of_covers hv hw (h.covers_startVa hv) (heq ▸ h.covers_startVa hw)

/-- The flags do not matter. -/
theorem clearCommitted (h : VadsOk p vads) (a : Nat) : VadsOk p (Mm.clearCommitted vads a) := by
  have hnd : ∀ w : Vad, (if w.startVa = a then { w with committed := false } else w).node = w.node := by
    intro w
    split <;> rfl
  have hme : ∀ P : AddressNode → Prop, (∀ w ∈ vads, P w.node) →
      ∀ w ∈ Mm.clearCommitted vads a, P w.node := by
    intro P hP w hw
    obtain ⟨u, hu, rfl⟩ := List.mem_map.1 hw
    rw [hnd]
    exact hP u hu
  refine ⟨pairwise_map.2 (h.apart.imp fun ha => ?_),
    hme (fun node => node.startVa % pageSize = 0) h.aligned,
    hme (fun node => 0 < node.size) h.nonempty,
    hme (fun node => node.limit < p.addresses) h.bounded⟩
  rw [hnd]
  exact ha.trans_eq (congrArg AddressNode.startVa (hnd _).symm)

end VadsOk

/-! ## Ranges -/

/-- The arguments that callers pass: page numbers as addresses, and a size that fits. -/
structure RangeOk (p : Port) (startVa n : Nat) : Prop where
  aligned : startVa % pageSize = 0
  startVa_lt : startVa < p.addresses
  size_lt : n * pageSize < p.addresses

/-- The whole range lies in the VAD. -/
def Vad.Holds (v : Vad) (startVa n : Nat) : Prop :=
  v.startVa ≤ startVa ∧ startVa + n * pageSize ≤ v.node.limit

namespace RangeOk

variable {vads : List Vad} {v : Vad} {startVa n : Nat}

theorem userSpaceEnd_lt (p : Port) : p.userSpaceEnd < p.addresses := by
  cases p <;> decide

theorem valid_iff (h : RangeOk p startVa n) :
    p.mmIsAddressRangeValid startVa (p.mul n pageSize) = true ↔
      0 < n ∧ startVa + n * pageSize ≤ p.userSpaceEnd := by
  have hlt := userSpaceEnd_lt p
  have hp : 0 < pageSize := by decide
  rw [Port.mul_eq h.size_lt, Port.mmIsAddressRangeValid, Bool.and_eq_true, Bool.and_eq_true,
    bne_iff_ne, decide_eq_true_eq, decide_eq_true_eq, Port.add]
  have hn : n * pageSize ≠ 0 ↔ 0 < n := by
    rw [Nat.mul_ne_zero_iff]
    omega
  rcases Nat.lt_or_ge (startVa + n * pageSize) p.addresses with hs | hs
  · rw [Nat.mod_eq_of_lt hs, hn]
    omega
  · -- a sum that wraps is smaller than its first term
    have hw : (startVa + n * pageSize) % p.addresses < startVa := by
      have hlt := h.size_lt
      have hst := h.startVa_lt
      rw [Nat.mod_eq_sub_mod hs, Nat.mod_eq_of_lt (by omega)]
      omega
    omega

theorem vadOfRange_iff (h : RangeOk p startVa n) (hv : VadsOk p vads) (hn : 0 < n)
    (he : startVa + n * pageSize ≤ p.userSpaceEnd) :
    p.vadOfRange vads startVa n = some v ↔ v ∈ vads ∧ v.Holds startVa n := by
  have hlt := userSpaceEnd_lt p
  have hpos := Nat.mul_pos hn (show 0 < pageSize by decide)
  have hls : p.sub (p.add startVa (p.mul n pageSize)) 1 = startVa + n * pageSize - 1 := by
    rw [Port.mul_eq h.size_lt, Port.add_eq (by omega), Port.sub_eq (by omega) (by omega)]
  rw [Port.vadOfRange, hls]
  constructor
  · intro hfn
    split at hfn
    · next v' w hv' hw =>
        split at hfn
        · next hsm =>
            cases hfn
            obtain ⟨hvm, hc⟩ := hv.lookUp_iff.1 hv'
            obtain ⟨hwm, hwc⟩ := hv.lookUp_iff.1 hw
            obtain rfl := hv.eq_of_startVa hvm hwm hsm
            have hwl := hwc.2
            exact ⟨hvm, hc.1, by omega⟩
        · cases hfn
    · cases hfn
  · rintro ⟨hme, hlo, hh⟩
    have hfs : p.mmLookUpVadByAddress vads startVa = some v :=
      hv.lookUp_iff.2 ⟨hme, hlo, by omega⟩
    have he' : p.mmLookUpVadByAddress vads (startVa + n * pageSize - 1) = some v :=
      hv.lookUp_iff.2 ⟨hme, by omega, by omega⟩
    rw [hfs, he']
    exact if_pos rfl

theorem startVa_eq (h : RangeOk p startVa n) : startVa = startVa / pageSize * pageSize := by
  have := Nat.div_add_mod startVa pageSize
  rw [h.aligned, Nat.mul_comm] at this
  omega

theorem last_page (h : RangeOk p startVa n) (he : startVa + n * pageSize ≤ p.userSpaceEnd) :
    (startVa / pageSize + n) * pageSize ≤ p.userSpaceEnd := by
  rwa [Nat.add_mul, ← h.startVa_eq]

end RangeOk

/-! ## What an entry says -/

/-- Is a page with this entry committed, in a VAD with this flag? A page that is there already is. -/
def readsCommitted (p : Port) (isVadCommitted : Bool) (e : Pte) : Bool :=
  mmIsPresentPte e || (if e = mmBuildZeroPte then isVadCommitted else mmIsCommittedPte p e)

/-- The entries that a port reads rightly. -/
def EntryOk (p : Port) (e : Pte) : Prop :=
  mmIsPresentPte e = true ∨ e = mmBuildZeroPte ∨
    (p = .arm ∧ (e = committedPte p ∨ e = decommittedPte p))

section

variable {e : Pte} {c : Bool}

theorem readsCommitted_present (h : mmIsPresentPte e = true) : readsCommitted p c e = true := by
  rw [readsCommitted, h, Bool.true_or]

@[simp] theorem readsCommitted_zero : readsCommitted p c mmBuildZeroPte = c := by
  simp [readsCommitted]

theorem readsCommitted_committedPte (hp : p = .arm) : readsCommitted p c (committedPte p) = true := by
  simp [readsCommitted, committedPte_ne_zero, isCommitted_committedPte, hp]

theorem readsCommitted_decommittedPte (hp : p = .arm) :
    readsCommitted p c (decommittedPte p) = false := by
  simp [readsCommitted, decommittedPte_ne_zero, isCommitted_decommittedPte, hp]

theorem EntryOk.mayCommit_eq (h : EntryOk p e) :
    PageTables.mayCommit p c e = !readsCommitted p c e := by
  rcases h with h | rfl | ⟨hp, rfl | rfl⟩
  · rw [readsCommitted_present h, PageTables.mayCommit, h]
    rfl
  · rw [PageTables.mayCommit_zero, readsCommitted_zero]
  · rw [readsCommitted_committedPte hp, PageTables.mayCommit, isCommitted_committedPte]
    simp [hp]
  · rw [readsCommitted_decommittedPte hp, PageTables.mayCommit, isCommitted_decommittedPte,
      isDecommitted_decommittedPte]
    simp [hp]

end

/-! ## Page faults -/

namespace PageTables

theorem hasTable_of_write {m m' : PageTables} {page : Nat} {e : Pte}
    (h : m.write p page e = some m') : m.HasTable p page := by
  obtain ⟨table, hb, -⟩ := map_eq_some_iff.1 h
  rw [HasTable, hb]
  rfl

theorem view_of_entry {m : PageTables} {page : Nat} {e : Pte} (h : m.entry p page = some e) :
    m.view p page = e := by
  rw [view, h]
  rfl

end PageTables

namespace UserMemory

variable {s s' : UserMemory T} {t : T} {v : Vad} {va : Nat} {room : Nat → Bool}
  {frame : Option Nat} {status : FaultStatus}

/-- What a fault changes: at most its page's entry, which maps a frame then. -/
structure Mapped (p : Port) (va : Nat) (s s' : UserMemory T) : Prop where
  vads : s'.vads = s.vads
  owner : s'.vadListOwner = s.vadListOwner
  view : ∀ page, s'.tables.view p page = s.tables.view p page ∨
    (page = va / pageSize ∧ mmIsPresentPte (s'.tables.view p page) = true)

theorem Mapped.refl : Mapped p va s s := ⟨rfl, rfl, fun _ => .inl rfl⟩

theorem mapFrame_mapped {wri : Bool}
    (h : s.mapFrame p v va frame wri = some (status, s')) : Mapped p va s s' := by
  cases frame with
  | none =>
    cases h
    exact .refl
  | some pfn =>
    obtain ⟨m, hm, hs⟩ := map_eq_some_iff.1 h
    cases hs
    obtain ⟨m', hm', -, hw⟩ := PageTables.write_spec (PageTables.hasTable_of_write hm)
      (.present pfn wri true)
    cases hm.symm.trans hm'
    refine ⟨rfl, rfl, fun page => ?_⟩
    by_cases hp : page = va / pageSize
    · refine .inr ⟨hp, ?_⟩
      rw [hw, if_pos hp]
      rfl
    · refine .inl ?_
      rw [hw, if_neg hp]

theorem mapFrame_success (wri : Bool) (pfn : Nat) (h : s.tables.HasTable p (va / pageSize)) :
    ∃ s', s.mapFrame p v va (some pfn) wri = some (.success, s') := by
  obtain ⟨m, hm, -⟩ := PageTables.write_spec h (.present pfn wri true)
  exact ⟨{ s with tables := m }, by rw [mapFrame, hm]; rfl⟩

variable [DecidableEq T]

theorem canLockVadList_of_owner (h : s.vadListOwner = none) (t : T) : s.canLockVadList t = true := by
  rw [canLockVadList, h]
  rfl

omit [DecidableEq T] in
theorem Mapped.after {m : PageTables} (h : Mapped p va { s with tables := m } s')
    (hw : ∀ page, m.view p page = s.tables.view p page) : Mapped p va s s' :=
  ⟨h.vads, h.owner, fun page => (h.view page).imp_left (·.trans (hw page))⟩

/-- **A normal fault** maps a page only if it finds it committed. -/
theorem miNormalFault_effect (hrm : ∀ j, room j = true)
    (hcl : ∀ v, p.mmLookUpVadByAddress s.vads va = some v →
      s.tables.view p (va / pageSize) = mmBuildZeroPte ∨
        mmIsCommittedPte p (s.tables.view p (va / pageSize)) = true)
    (h : s.miNormalFault p t room va frame = some (status, s')) :
    Mapped p va s s' ∧ (s' = s ∨ ∃ v, p.mmLookUpVadByAddress s.vads va = some v ∧
      readsCommitted p v.committed (s.tables.view p (va / pageSize)) = true) := by
  simp only [miNormalFault] at h
  split at h
  · cases h
  split at h
  · cases h
    exact ⟨.refl, .inl rfl⟩
  · next v hv =>
      split at h
      · next hz =>
          have hw : s.tables.view p (va / pageSize) = mmBuildZeroPte := by
            rcases hz with hz | hz
            · rw [PageTables.view, hz]
              rfl
            · exact PageTables.view_of_entry hz
          split at h
          · next hcm =>
              obtain ⟨m, hm, -, hmv⟩ :=
                PageTables.check_generate (m := s.tables) (p := p) va (hrm _)
              rw [hm] at h
              refine ⟨(mapFrame_mapped h).after hmv, .inr ⟨v, hv, ?_⟩⟩
              rw [hw, readsCommitted_zero, hcm]
          · cases h
            exact ⟨.refl, .inl rfl⟩
      · next hz =>
          obtain ⟨e, he⟩ := ne_none_iff_exists'.1 fun hn => hz (.inl hn)
          have hw := PageTables.view_of_entry he
          have hne : e ≠ mmBuildZeroPte := fun h0 => hz (.inr (h0 ▸ he))
          have hmr : mmIsCommittedPte p e = true := by
            rcases hcl v hv with h0 | hc
            · exact absurd (hw.symm.trans h0) hne
            · rwa [hw] at hc
          rw [he, any_some, if_pos hmr] at h
          refine ⟨mapFrame_mapped h, .inr ⟨v, hv, ?_⟩⟩
          rw [hw, readsCommitted, if_neg hne, hmr, Bool.or_true]

/-- **A write fault** maps a page that is mapped already. -/
theorem miWriteFault_effect {pfn : Nat} {wri : Bool}
    (h : s.miWriteFault p t va pfn wri frame = some (status, s')) :
    Mapped p va s s' ∧ (s' = s ∨ ∃ v, p.mmLookUpVadByAddress s.vads va = some v) := by
  simp only [miWriteFault] at h
  split at h
  · cases h
    exact ⟨.refl, .inl rfl⟩
  split at h
  · cases h
  split at h
  · cases h
    exact ⟨.refl, .inl rfl⟩
  · next v hv =>
      split at h
      · split at h
        · exact ⟨mapFrame_mapped h, .inr ⟨v, hv⟩⟩
        · exact ⟨mapFrame_mapped h, .inr ⟨v, hv⟩⟩
      · cases h
        exact ⟨.refl, .inl rfl⟩

theorem mmPageFault_effect {write : Bool} (hrm : ∀ j, room j = true)
    (hc : ∀ v, p.mmLookUpVadByAddress s.vads va = some v →
      mmIsPresentPte (s.tables.view p (va / pageSize)) = true ∨
        s.tables.view p (va / pageSize) = mmBuildZeroPte ∨
        mmIsCommittedPte p (s.tables.view p (va / pageSize)) = true)
    (h : s.mmPageFault p t room va write frame = some (status, s')) :
    Mapped p va s s' ∧ (s' = s ∨ ∃ v, p.mmLookUpVadByAddress s.vads va = some v ∧
      readsCommitted p v.committed (s.tables.view p (va / pageSize)) = true) := by
  rw [mmPageFault] at h
  split at h
  · next pfn wri pmm he =>
      have hw := PageTables.view_of_entry he
      split at h
      · obtain ⟨hmp, hvd⟩ := miWriteFault_effect h
        exact ⟨hmp, hvd.imp_right fun ⟨v, hv⟩ =>
          ⟨v, hv, readsCommitted_present (by rw [hw]; rfl)⟩⟩
      · cases h
        exact ⟨.refl, .inl rfl⟩
  · next hne =>
      obtain ⟨r, hr, heq⟩ := map_eq_some_iff.1 h
      cases heq
      refine miNormalFault_effect hrm (fun v hv => (hc v hv).resolve_left fun hp => ?_) hr
      -- the entry of a page that is there was the first case
      cases he : s.tables.entry p (va / pageSize) with
      | none =>
        rw [PageTables.view, he] at hp
        cases hp
      | some e =>
        rw [PageTables.view_of_entry he] at hp
        cases e with
        | present pfn wri pmm => exact hne pfn wri pmm he
        | absent hardware => cases hp

/-- **The verdict of a fault**: with a frame at hand it succeeds on the committed pages. -/
theorem mmPageFault_success_iff {pfn : Nat} (hrm : ∀ j, room j = true)
    (hw : s.vadListOwner = none) (hv : p.mmLookUpVadByAddress s.vads va = some v) :
    (∃ s', s.mmPageFault p t room va false (some pfn) = some (.success, s')) ↔
      readsCommitted p v.committed (s.tables.view p (va / pageSize)) = true := by
  have hlc := canLockVadList_of_owner hw t
  cases he : s.tables.entry p (va / pageSize) with
  | none =>
    have hvw : s.tables.view p (va / pageSize) = mmBuildZeroPte := by
      rw [PageTables.view, he]
      rfl
    rw [hvw, readsCommitted_zero]
    obtain ⟨m, hm, hb, -⟩ :=
      PageTables.check_generate (m := s.tables) (p := p) va (hrm _)
    simp only [mmPageFault, miNormalFault, he, hlc, hv, hm, Bool.not_true, Bool.false_eq_true,
      if_false, true_or, if_true]
    cases hc : v.committed with
    | true =>
      obtain ⟨s', hs'⟩ := mapFrame_success (v := v)
        (s := { s with tables := m }) false pfn ((hb _).2 (.inr rfl))
      simp [hs']
    | false => simp
  | some e =>
    rw [PageTables.view_of_entry he]
    have hb : s.tables.HasTable p (va / pageSize) := by
      obtain ⟨table, hb, -⟩ := map_eq_some_iff.1 he
      rw [PageTables.HasTable, hb]
      rfl
    cases e with
    | present pfn' wri pmm => simp [mmPageFault, he, readsCommitted, mmIsPresentPte]
    | absent hardware =>
      obtain ⟨s', hs'⟩ := mapFrame_success (v := v) false pfn hb
      simp only [mmPageFault, miNormalFault, he, hlc, hv, Bool.not_true, Bool.false_eq_true,
        if_false, PageTables.check_of_hasTable hb, if_true, reduceCtorEq, false_or,
        some.injEq, any_some, readsCommitted, mmIsPresentPte, Bool.false_or]
      by_cases h0 : Pte.absent hardware = mmBuildZeroPte
      · simp only [if_pos h0]
        cases v.committed with
        | true => simp [hs']
        | false => simp
      · simp only [if_neg h0]
        cases mmIsCommittedPte p (.absent hardware) with
        | true => simp [hs']
        | false => simp

variable {startVa n protection : Nat}

/-! ## Commit and decommit -/

/-- The page is one of the range. -/
def InRange (startVa n page : Nat) : Prop :=
  startVa / pageSize ≤ page ∧ page < startVa / pageSize + n

instance (startVa n page : Nat) : Decidable (InRange startVa n page) :=
  inferInstanceAs (Decidable (_ ∧ _))

/-- When a commit should succeed, in terms of what the pages are. -/
structure Committable (p : Port) (s : UserMemory T) (startVa n protection : Nat)
    (committed : Nat → Bool) (v : Vad) : Prop where
  nonempty : 0 < n
  inUser : startVa + n * pageSize ≤ p.userSpaceEnd
  mem : v ∈ s.vads
  holds : v.Holds startVa n
  hasProtection : protection ≠ 0 ∨ v.protection ≠ 0
  free : ∀ page, InRange startVa n page → committed page = false

/-- The commit finds nothing against the range in the VAD. -/
def Marks (p : Port) (s : UserMemory T) (startVa n protection : Nat) (v : Vad) : Prop :=
  s.Committable p startVa n protection
    (fun page => !PageTables.mayCommit p v.committed (s.tables.view p page)) v

/-- A commit that finds nothing against the range marks it up to the first page that gets no page
table. -/
theorem mmCommitVirtualMemory_marks {protection : Nat} (stop : Nat) (hr : RangeOk p startVa n)
    (hvd : VadsOk p s.vads) (hw : s.vadListOwner = none)
    (h : s.Marks p startVa n protection v)
    (hst : s.tables.StopsAt p room (startVa / pageSize) n stop) :
    ∃ m, s.mmCommitVirtualMemory p t room startVa n protection =
        some (if stop = startVa / pageSize + n then .success else .insufficientMemory,
          { s with tables := m }) ∧
      ∀ page, m.view p page =
        if startVa / pageSize ≤ page ∧ page < stop then committedPte p
        else s.tables.view p page := by
  have hc := canLockVadList_of_owner hw t
  have hvl := hr.valid_iff.2 ⟨h.nonempty, h.inUser⟩
  have hv := (hr.vadOfRange_iff hvd h.nonempty h.inUser).2 ⟨h.mem, h.holds⟩
  have hpr : ¬ (protection = 0 ∧ v.protection = 0) := fun hno =>
    h.hasProtection.elim (fun hp => hp hno.1) fun hp => hp hno.2
  have hls := hr.last_page h.inUser
  obtain ⟨b, hb, hbs⟩ := PageTables.checkRange_spec (m := s.tables) (c := v.committed)
    (i := 0) hls (n + 1) (by omega) .start
  obtain ⟨m, hm, hvw⟩ := PageTables.commitPtes_spec (m := s.tables) (i := 0)
    (a := startVa / pageSize) n hls .start hst
  rw [Nat.add_zero (startVa / pageSize), ← hr.startVa_eq] at hb hm
  obtain rfl : b = true := hbs.2 fun q hlo hh => by
    simpa using h.free q ⟨by omega, by omega⟩
  refine ⟨m, ?_, hvw⟩
  simp [mmCommitVirtualMemory, hvl, hc, hv, hpr, hb, hm]

/-- A commit that finds something against the range in every VAD changes nothing. -/
theorem mmCommitVirtualMemory_refused {protection : Nat} (room : Nat → Bool) (hr : RangeOk p startVa n)
    (hvd : VadsOk p s.vads) (hw : s.vadListOwner = none)
    (hno : ∀ v, ¬ s.Marks p startVa n protection v) :
    ∃ st, s.mmCommitVirtualMemory p t room startVa n protection = some (st, s) ∧
      st ≠ .success ∧ st ≠ .insufficientMemory := by
  have hc := canLockVadList_of_owner hw t
  by_cases hvl : p.mmIsAddressRangeValid startVa (p.mul n pageSize) = true
  · obtain ⟨hn, he⟩ := hr.valid_iff.1 hvl
    cases hv : p.vadOfRange s.vads startVa n with
    | none => exact ⟨.conflictingAddresses, by simp [mmCommitVirtualMemory, hvl, hc, hv], by simp⟩
    | some v =>
      obtain ⟨hme, hholds⟩ := (hr.vadOfRange_iff hvd hn he).1 hv
      by_cases hp : protection = 0 ∧ v.protection = 0
      · exact ⟨.invalidParameter, by simp [mmCommitVirtualMemory, hvl, hc, hv, hp], by simp⟩
      · obtain ⟨b, hb, hbs⟩ := PageTables.checkRange_spec (m := s.tables) (c := v.committed)
          (i := 0) (hr.last_page he) (n + 1) (by omega) .start
        rw [Nat.add_zero (startVa / pageSize), ← hr.startVa_eq] at hb
        cases b with
        | true =>
          have hp : protection ≠ 0 ∨ v.protection ≠ 0 := by omega
          refine absurd ⟨hn, he, hme, hholds, hp, fun page hpg => ?_⟩ (hno v)
          simpa using hbs.1 rfl page hpg.1 hpg.2
        | false =>
          exact ⟨.conflictingAddresses, by simp [mmCommitVirtualMemory, hvl, hc, hv, hp, hb], by simp⟩
  · exact ⟨.invalidParameter, by simp [mmCommitVirtualMemory, hvl], by simp⟩

/-- **A commit** returns; if every page of its range is read rightly it succeeds exactly when it
should, and then marks the range and nothing else. -/
theorem mmCommitVirtualMemory_spec {com : Nat → Bool} (protection : Nat)
    (hrm : ∀ j, room j = true) (hr : RangeOk p startVa n) (hvd : VadsOk p s.vads)
    (hw : s.vadListOwner = none)
    (hpages : ∀ v ∈ s.vads, v.Holds startVa n → ∀ page, InRange startVa n page →
      PageTables.mayCommit p v.committed (s.tables.view p page) = !com page) :
    ∃ st s', s.mmCommitVirtualMemory p t room startVa n protection = some (st, s') ∧
      (st = .success ↔ ∃ v, s.Committable p startVa n protection com v) ∧
      (st ≠ .success → s' = s) ∧
      (st = .success → s'.vads = s.vads ∧ s'.vadListOwner = s.vadListOwner ∧
        ∀ page, s'.tables.view p page =
          if InRange startVa n page then committedPte p else s.tables.view p page) := by
  have hmr : ∀ v, s.Marks p startVa n protection v ↔ s.Committable p startVa n protection com v := by
    intro v
    have hfr : ∀ hme : v ∈ s.vads, ∀ hholds : v.Holds startVa n, ∀ page, InRange startVa n page →
          (!PageTables.mayCommit p v.committed (s.tables.view p page)) = com page := by
      intro hme hholds page hp
      rw [hpages v hme hholds page hp, Bool.not_not]
    constructor
    · intro h
      refine ⟨h.nonempty, h.inUser, h.mem, h.holds, h.hasProtection, fun page hp => ?_⟩
      exact (hfr h.mem h.holds page hp).symm.trans (h.free page hp)
    · intro h
      refine ⟨h.nonempty, h.inUser, h.mem, h.holds, h.hasProtection, fun page hp => ?_⟩
      exact (hfr h.mem h.holds page hp).trans (h.free page hp)
  by_cases hsm : ∃ v, s.Marks p startVa n protection v
  · obtain ⟨v, hv⟩ := hsm
    obtain ⟨m, hm, hvw⟩ := mmCommitVirtualMemory_marks (t := t) (startVa / pageSize + n) hr hvd
      hw hv ⟨Nat.le_add_right _ _, le_rfl, fun _ _ _ => .inr (hrm _), fun h => absurd h (lt_irrefl _)⟩
    rw [if_pos rfl] at hm
    exact ⟨.success, _, hm, ⟨fun _ => ⟨v, (hmr v).1 hv⟩, fun _ => rfl⟩, fun h => absurd rfl h,
      fun _ => ⟨rfl, rfl, hvw⟩⟩
  · have hno : ∀ v, ¬ s.Marks p startVa n protection v := not_exists.1 hsm
    obtain ⟨st, hst, hne, -⟩ := mmCommitVirtualMemory_refused (t := t) room hr hvd hw hno
    exact ⟨st, s, hst, ⟨fun h => absurd h hne, fun ⟨v, hv⟩ => absurd ((hmr v).2 hv) (hno v)⟩,
      fun _ => rfl, fun h => absurd h hne⟩

/-- The VAD that a decommit clears is decommitted as a whole. -/
def IsWhole (v : Vad) (startVa n : Nat) : Prop := v.startVa = startVa ∧ v.node.size = n

instance (v : Vad) (startVa n : Nat) : Decidable (IsWhole v startVa n) :=
  inferInstanceAs (Decidable (_ ∧ _))

/-- **A decommit** returns; if it succeeds it marks the pages of its range that have a page table, or
get one if a part of a committed VAD is decommitted, and clears the flag of a VAD that it covers as a
whole. -/
theorem mmDecommitVirtualMemory_found (room : Nat → Bool) (hr : RangeOk p startVa n) (hvd : VadsOk p s.vads)
    (how : s.vadListOwner = none) :
    ∃ st s', s.mmDecommitVirtualMemory p t room startVa n = some (st, s') ∧
      (st = .success ↔ (0 < n ∧ startVa + n * pageSize ≤ p.userSpaceEnd) ∧
        ∃ v ∈ s.vads, v.Holds startVa n) ∧
      (st ≠ .success → s' = s) ∧
      (st = .success → ∃ v ∈ s.vads, v.Holds startVa n ∧ s'.vadListOwner = s.vadListOwner ∧
        s'.vads = (if IsWhole v startVa n then clearCommitted s.vads v.startVa else s.vads) ∧
        ∀ page, s'.tables.view p page =
          if InRange startVa n page ∧
              s.tables.Found p room (v.committed && !decide (IsWhole v startVa n)) page then
            decommittedPte p
          else s.tables.view p page) := by
  have hc := canLockVadList_of_owner how t
  by_cases hvl : p.mmIsAddressRangeValid startVa (p.mul n pageSize) = true
  · obtain ⟨hn, he⟩ := hr.valid_iff.1 hvl
    have hn0 : n ≠ 0 := by omega
    cases hv : p.vadOfRange s.vads startVa n with
    | none =>
      refine ⟨.conflictingAddresses, s, ?_, iff_of_false nofun ?_, fun _ => rfl, nofun⟩
      · simp [mmDecommitVirtualMemory, hvl, hn0, hc, hv]
      · rintro ⟨-, v, hme, hholds⟩
        rw [(hr.vadOfRange_iff hvd hn he).2 ⟨hme, hholds⟩] at hv
        cases hv
    | some v =>
      obtain ⟨hme, hholds⟩ := (hr.vadOfRange_iff hvd hn he).1 hv
      obtain ⟨m, freed, hm, hvw⟩ := PageTables.decommitPtes_spec (m := s.tables) (i := 0)
        room (v.committed && !decide (IsWhole v startVa n)) []
        (hr.last_page he) (n + 1) (by omega) .start
      rw [Nat.add_zero (startVa / pageSize), ← hr.startVa_eq] at hm
      have hw : (decide (v.startVa = startVa) && decide (v.node.size = n)) =
          decide (IsWhole v startVa n) := by
        rw [← Bool.decide_and]
        rfl
      refine ⟨.success, { s with
        vads := if IsWhole v startVa n then clearCommitted s.vads v.startVa else s.vads
        tables := m }, ?_, iff_of_true rfl ⟨⟨hn, he⟩, v, hme, hholds⟩, fun h => absurd rfl h,
        fun _ => ⟨v, hme, hholds, rfl, rfl, hvw⟩⟩
      simp [mmDecommitVirtualMemory, hvl, hn0, hc, hv, miDecommitVad, hw, hm]
  · refine ⟨.invalidParameter, s, ?_, iff_of_false nofun fun h => hvl (hr.valid_iff.2 h.1),
      fun _ => rfl, nofun⟩
    simp [mmDecommitVirtualMemory, hvl]

/-- The same, where every page table can be had. -/
theorem mmDecommitVirtualMemory_spec (hrm : ∀ j, room j = true) (hr : RangeOk p startVa n)
    (hvd : VadsOk p s.vads) (hw : s.vadListOwner = none) :
    ∃ st s', s.mmDecommitVirtualMemory p t room startVa n = some (st, s') ∧ (st ≠ .success → s' = s) ∧
      (st = .success → ∃ v ∈ s.vads, v.Holds startVa n ∧ s'.vadListOwner = s.vadListOwner ∧
        s'.vads = (if IsWhole v startVa n then clearCommitted s.vads v.startVa else s.vads) ∧
        ∀ page, s'.tables.view p page =
          if InRange startVa n page ∧ ((v.committed = true ∧ ¬ IsWhole v startVa n) ∨
              s.tables.HasTable p page) then decommittedPte p
          else s.tables.view p page) := by
  obtain ⟨st, s', hs, -, hsm, hdn⟩ := mmDecommitVirtualMemory_found (t := t) room hr hvd hw
  refine ⟨st, s', hs, hsm, fun hst => ?_⟩
  obtain ⟨v, hme, hholds, hw, hvd, hvw⟩ := hdn hst
  refine ⟨v, hme, hholds, hw, hvd, fun page => (hvw page).trans ?_⟩
  refine if_congr (and_congr_right fun _ => ?_) rfl rfl
  rw [PageTables.Found, hrm, Bool.and_true, Bool.and_eq_true, Bool.not_eq_true',
    decide_eq_false_iff_not, or_comm]

end UserMemory

/-! ## Histories -/

/-- A process' memory with the last decision about each page. -/
structure CommitHistory (T : Type) where
  memory : UserMemory T
  decided : Nat → Bool

/-- A call by thread `t`. `room` is where page tables can be allocated, `frame` the page frame that
the allocator or the mapped object has for the fault. -/
inductive CommitAction (T : Type)
  | commit (t : T) (startVa n protection : Nat) (room : Nat → Bool)
  | decommit (t : T) (startVa n : Nat) (room : Nat → Bool)
  | fault (t : T) (va : Nat) (write : Bool) (frame : Option Nat) (room : Nat → Bool)

namespace CommitHistory

open UserMemory

variable [DecidableEq T]

omit [DecidableEq T] in
/-- The call is over; its decision counts if it has succeeded. -/
def record (h : CommitHistory T) (startVa n : Nat) (decision : Bool)
    (r : Status × UserMemory T) : CommitHistory T where
  memory := r.2
  decided page :=
    if r.1 = .success ∧ InRange startVa n page then decision else h.decided page

def step (p : Port) (h : CommitHistory T) : CommitAction T → Option (CommitHistory T)
  | .commit t startVa n protection room =>
    (h.memory.mmCommitVirtualMemory p t room startVa n protection).map (h.record startVa n true)
  | .decommit t startVa n room =>
    (h.memory.mmDecommitVirtualMemory p t room startVa n).map (h.record startVa n false)
  | .fault t va write frame room =>
    (h.memory.mmPageFault p t room va write frame).map fun r => { h with memory := r.2 }

omit [DecidableEq T] in
/-- The VADs are just reserved: no page has an entry yet, and what was decided is their flag. -/
structure Fresh (p : Port) (h : CommitHistory T) : Prop where
  vads : VadsOk p h.memory.vads
  owner : h.memory.vadListOwner = none
  zero : ∀ v ∈ h.memory.vads, ∀ page, v.covers (page * pageSize) →
    h.memory.tables.view p page = mmBuildZeroPte
  decided : ∀ v ∈ h.memory.vads, ∀ page, v.covers (page * pageSize) →
    h.decided page = v.committed

omit [DecidableEq T] in
/-- What callers pass, with allocations that succeed. -/
def Called (p : Port) : CommitAction T → Prop
  | .commit _ startVa n _ room => RangeOk p startVa n ∧ ∀ j, room j = true
  | .decommit _ startVa n room => RangeOk p startVa n ∧ ∀ j, room j = true
  | .fault _ _ _ _ room => ∀ j, room j = true

omit [DecidableEq T] in
/-- The step does not meet a marker that is read wrongly, nor make one. On amd64 and i386 no commit
finds its range uncommitted, and no decommit finds a page table in its range or needs one; and no
fault is on a page with a marker that does not read as committed. -/
def Calm (p : Port) (h : CommitHistory T) : CommitAction T → Prop
  | .commit _ startVa n protection _ =>
    p = .arm ∨ ∀ v, ¬ h.memory.Committable p startVa n protection h.decided v
  | .decommit _ startVa n _ =>
    p = .arm ∨ ∀ v ∈ h.memory.vads, v.Holds startVa n →
      (v.committed = true → IsWhole v startVa n) ∧
        ∀ page, InRange startVa n page → ¬ h.memory.tables.HasTable p page
  | .fault _ va _ _ _ => ∀ v, p.mmLookUpVadByAddress h.memory.vads va = some v →
    mmIsPresentPte (h.memory.tables.view p (va / pageSize)) = true ∨
      h.memory.tables.view p (va / pageSize) = mmBuildZeroPte ∨
      mmIsCommittedPte p (h.memory.tables.view p (va / pageSize)) = true

/-- Commitment as it should be. -/
structure Agrees (p : Port) (h : CommitHistory T) : Prop where
  /-- A fault with a frame at hand succeeds on exactly the pages decided to be committed. -/
  faults : ∀ t room va v pfn, (∀ j, room j = true) →
    p.mmLookUpVadByAddress h.memory.vads va = some v →
    ((∃ s', h.memory.mmPageFault p t room va false (some pfn) = some (.success, s')) ↔
      h.decided (va / pageSize) = true)
  /-- A commit succeeds exactly on a range of one VAD with no page decided to be committed. -/
  commits : ∀ t room startVa n protection, (∀ j, room j = true) → RangeOk p startVa n →
    ((∃ s', h.memory.mmCommitVirtualMemory p t room startVa n protection = some (.success, s')) ↔
      ∃ v, h.memory.Committable p startVa n protection h.decided v)
  /-- A call returns, and a rejected one changes nothing. -/
  rejected : ∀ t room startVa n protection, (∀ j, room j = true) → RangeOk p startVa n →
    (∃ st s', h.memory.mmCommitVirtualMemory p t room startVa n protection = some (st, s') ∧
      (st ≠ .success → s' = h.memory)) ∧
    ∃ st s', h.memory.mmDecommitVirtualMemory p t room startVa n = some (st, s') ∧
      (st ≠ .success → s' = h.memory)

omit [DecidableEq T] in
/-- The invariant of the runs. -/
structure Inv (p : Port) (h : CommitHistory T) : Prop where
  vads : VadsOk p h.memory.vads
  owner : h.memory.vadListOwner = none
  entries : ∀ v ∈ h.memory.vads, ∀ page, v.covers (page * pageSize) →
    EntryOk p (h.memory.tables.view p page)
  agree : ∀ v ∈ h.memory.vads, ∀ page, v.covers (page * pageSize) →
    readsCommitted p v.committed (h.memory.tables.view p page) = h.decided page

variable {h h' : CommitHistory T} {v : Vad} {startVa n va page : Nat}

omit [DecidableEq T] in
theorem Fresh.inv (hf : Fresh p h) : Inv p h where
  vads := hf.vads
  owner := hf.owner
  entries v hv page hp := .inr (.inl (hf.zero v hv page hp))
  agree v hv page hp := by
    rw [hf.zero v hv page hp, hf.decided v hv page hp, readsCommitted_zero]

theorem covers_of_inRange (hr : RangeOk p startVa n) (hv : v.Holds startVa n)
    (hp : InRange startVa n page) : v.covers (page * pageSize) := by
  have hst := hr.startVa_eq
  have hlo := Nat.mul_le_mul_right pageSize hp.1
  have hh : (page + 1) * pageSize ≤ (startVa / pageSize + n) * pageSize :=
    Nat.mul_le_mul_right pageSize hp.2
  have hsize : 0 < pageSize := by decide
  rw [Nat.add_mul page, Nat.one_mul, Nat.add_mul, ← hst] at hh
  exact ⟨hv.1.trans (by omega), by have := hv.2; omega⟩

omit [DecidableEq T] in
theorem covers_page (hvd : VadsOk p h.memory.vads) (hme : v ∈ h.memory.vads)
    (hva : v.covers va) : v.covers (va / pageSize * pageSize) := by
  have hst := Nat.div_add_mod v.startVa pageSize
  rw [hvd.aligned v hme, Nat.add_zero, Nat.mul_comm] at hst
  have hle := Nat.mul_le_mul_right pageSize (Nat.div_le_div_right (c := pageSize) hva.1)
  have hsl := Nat.div_mul_le_self va pageSize
  exact ⟨by omega, hsl.trans_lt hva.2⟩

omit [DecidableEq T] in
theorem Inv.mayCommit (hi : Inv p h) (hr : RangeOk p startVa n) :
    ∀ v ∈ h.memory.vads, v.Holds startVa n → ∀ page, InRange startVa n page →
      PageTables.mayCommit p v.committed (h.memory.tables.view p page) = !h.decided page := by
  intro v hme hholds page hp
  have hc := covers_of_inRange hr hholds hp
  rw [(hi.entries v hme page hc).mayCommit_eq, hi.agree v hme page hc]

theorem Inv.agrees (hi : Inv p h) : Agrees p h where
  faults t room va v pfn hrm hv := by
    obtain ⟨hme, hc⟩ := hi.vads.lookUp_iff.1 hv
    rw [mmPageFault_success_iff hrm hi.owner hv, hi.agree v hme _ (covers_page hi.vads hme hc)]
  commits t room startVa n protection hrm hr := by
    obtain ⟨st, s', hs, hif, -⟩ := mmCommitVirtualMemory_spec (t := t) protection
      hrm hr hi.vads hi.owner (hi.mayCommit hr)
    rw [← hif, hs]
    exact ⟨fun ⟨_, h⟩ => (Prod.mk.inj (some.inj h)).1, fun h => ⟨s', by rw [h]⟩⟩
  rejected t room startVa n protection hrm hr := by
    obtain ⟨st, s', hs, -, hsm, -⟩ := mmCommitVirtualMemory_spec (t := t) protection
      hrm hr hi.vads hi.owner (hi.mayCommit hr)
    obtain ⟨st', s'', hs', hsm', -⟩ := mmDecommitVirtualMemory_spec (t := t) hrm hr hi.vads hi.owner
    exact ⟨⟨st, s', hs, hsm⟩, st', s'', hs', hsm'⟩

/-! ## Steps -/

omit [DecidableEq T] in
/-- A call that is rejected decides nothing. -/
theorem record_of_rejected {st : Status} {s' : UserMemory T} {dec : Bool}
    (hst : st ≠ .success) (hs : s' = h.memory) : h.record startVa n dec (st, s') = h := by
  subst hs
  simp only [record, hst, false_and, if_false]

theorem Inv.commit {t : T} {protection : Nat} {room : Nat → Bool} (hi : Inv p h)
    (hcl : Called p (.commit t startVa n protection room))
    (hcm : h.Calm p (.commit t startVa n protection room))
    (hsp : h.step p (.commit t startVa n protection room) = some h') : Inv p h' := by
  obtain ⟨hr, hrm⟩ := hcl
  obtain ⟨st, s', hs, hif, hsm, hdn⟩ := mmCommitVirtualMemory_spec (t := t) protection
    hrm hr hi.vads hi.owner (hi.mayCommit hr)
  rw [step, hs, map_some, some.injEq] at hsp
  by_cases hst : st = .success
  · obtain ⟨hvd, how, hw⟩ := hdn hst
    obtain ⟨u, hu⟩ := hif.1 hst
    obtain hp : p = .arm := hcm.resolve_right fun hno => hno u hu
    subst hsp
    refine ⟨hvd ▸ hi.vads, how.trans hi.owner, fun v hv page hc => ?_, fun v hv page hc => ?_⟩
    · simp only [record, hw]
      split
      · exact .inr (.inr ⟨hp, .inl rfl⟩)
      · exact hi.entries v (hvd ▸ hv) page hc
    · simp only [record, hw, hst, true_and]
      split
      · exact readsCommitted_committedPte hp
      · exact hi.agree v (hvd ▸ hv) page hc
  · rw [record_of_rejected hst (hsm hst)] at hsp
    exact hsp ▸ hi

theorem Inv.decommit {t : T} {room : Nat → Bool} (hi : Inv p h)
    (hcl : Called p (.decommit t startVa n room))
    (hclm : h.Calm p (.decommit t startVa n room))
    (hsp : h.step p (.decommit t startVa n room) = some h') : Inv p h' := by
  obtain ⟨hr, hrm⟩ := hcl
  obtain ⟨st, s', hs, hsm, hdn⟩ := mmDecommitVirtualMemory_spec (t := t) hrm hr hi.vads hi.owner
  rw [step, hs, map_some, some.injEq] at hsp
  by_cases hst : st = .success
  · obtain ⟨u, hu, hholds, how, hvd, hvw⟩ := hdn hst
    subst hsp
    -- a marker is only made where it is read rightly
    have ha : ∀ page, InRange startVa n page →
        (u.committed = true ∧ ¬ IsWhole u startVa n) ∨ h.memory.tables.HasTable p page →
        p = .arm := by
      intro page hpg hmr
      rcases hclm with hp | hno
      · exact hp
      · obtain ⟨hh, hb⟩ := hno u hu hholds
        rcases hmr with ⟨hc, hw⟩ | ht
        · exact absurd (hh hc) hw
        · exact absurd ht (hb page hpg)
    -- the VADs and their flags
    have hfl : ∀ v ∈ s'.vads, ∃ w ∈ h.memory.vads, v.node = w.node ∧
        v.committed = (w.committed && !(IsWhole u startVa n && w = u)) := by
      intro v hv
      rw [hvd] at hv
      split at hv
      · next hw =>
          obtain ⟨w, hw', rfl⟩ := List.mem_map.1 hv
          refine ⟨w, hw', by split <;> rfl, ?_⟩
          by_cases hwu : w = u
          · rw [hwu, if_pos rfl]
            simp [hw]
          · rw [if_neg fun heq => hwu (hi.vads.eq_of_startVa hw' hu heq)]
            simp [hwu]
      · next hw => exact ⟨v, hv, rfl, by simp [hw]⟩
    refine ⟨?_, how.trans hi.owner, fun v hv page hcv => ?_, fun v hv page hcv => ?_⟩
    · simp only [record, hvd]
      split
      · exact hi.vads.clearCommitted _
      · exact hi.vads
    · obtain ⟨w, hw, hnd, -⟩ := hfl v hv
      have hwc : w.covers (page * pageSize) := by rwa [Vad.covers, Vad.startVa, ← hnd]
      simp only [record, hvw]
      split
      · next hmr => exact .inr (.inr ⟨ha page hmr.1 hmr.2, .inr rfl⟩)
      · exact hi.entries w hw page hwc
    · obtain ⟨w, hw, hnd, hcm⟩ := hfl v hv
      have hwc : w.covers (page * pageSize) := by rwa [Vad.covers, Vad.startVa, ← hnd]
      simp only [record, hvw, hst, true_and]
      by_cases hpg : InRange startVa n page
      · obtain rfl := hi.vads.eq_of_covers hw hu hwc (covers_of_inRange hr hholds hpg)
        rw [if_pos hpg]
        split
        · next hmr => exact readsCommitted_decommittedPte (ha page hmr.1 hmr.2)
        · next hmr =>
            have hno := fun hm => hmr ⟨hpg, hm⟩
            rw [PageTables.view_of_not_hasTable fun ht => hno (.inr ht), readsCommitted_zero, hcm]
            by_cases hh : IsWhole w startVa n
            · simp [hh]
            · simpa [hh] using fun hc => hno (.inl ⟨hc, hh⟩)
      · rw [if_neg hpg, if_neg fun hmr => hpg hmr.1, ← hi.agree w hw page hwc]
        congr 1
        rw [hcm]
        by_cases hh : IsWhole u startVa n ∧ w = u
        · -- all pages of a VAD decommitted as a whole are in the range
          obtain ⟨⟨hsr, hsize⟩, rfl⟩ := hh
          refine absurd ⟨?_, ?_⟩ hpg
          · have := Nat.div_le_div_right (c := pageSize) (hsr ▸ hwc.1)
            rwa [Port.page_of_address] at this
          · have hlm : w.node.limit = startVa + n * pageSize := by
              rw [← hsr, ← hsize]
              rfl
            have := hwc.2
            rw [hlm, hr.startVa_eq, ← Nat.add_mul] at this
            exact Nat.lt_of_mul_lt_mul_right this
        · rw [← Bool.decide_and, decide_eq_false hh, Bool.not_false, Bool.and_true]
  · rw [record_of_rejected hst (hsm hst)] at hsp
    exact hsp ▸ hi

theorem Inv.fault {t : T} {write : Bool} {frame : Option Nat} {room : Nat → Bool} (hi : Inv p h)
    (hrm : ∀ j, room j = true) (hcl : h.Calm p (.fault t va write frame room))
    (hst : h.step p (.fault t va write frame room) = some h') : Inv p h' := by
  obtain ⟨r, hr, rfl⟩ := map_eq_some_iff.1 hst
  obtain ⟨hmp, hread⟩ := mmPageFault_effect hrm hcl hr
  refine ⟨hmp.vads ▸ hi.vads, hmp.owner.trans hi.owner, fun v hv page hc => ?_, fun v hv page hc => ?_⟩
  · rw [hmp.vads] at hv
    rcases hmp.view page with hvw | ⟨-, hp⟩
    · exact hvw ▸ hi.entries v hv page hc
    · exact .inl hp
  · rw [hmp.vads] at hv
    have ha := hi.agree v hv page hc
    rcases hmp.view page with hvw | ⟨hpg, hp⟩
    · rw [hvw, ha]
    · rw [readsCommitted_present hp, ← ha]
      rcases hread with hsm | ⟨w, hw, hcm⟩
      · rw [hsm] at hp
        exact (readsCommitted_present hp).symm
      · -- the VAD of the fault is the page's
        obtain ⟨hwm, hwc⟩ := hi.vads.lookUp_iff.1 hw
        obtain rfl := hi.vads.eq_of_covers hv hwm hc (hpg ▸ covers_page hi.vads hwm hwc)
        rw [hpg, hcm]

theorem Inv.step {a : CommitAction T} (hi : Inv p h) (hcl : Called p a) (hc : h.Calm p a)
    (hst : h.step p a = some h') : Inv p h' := by
  cases a with
  | commit t startVa n protection room => exact hi.commit hcl hc hst
  | decommit t startVa n room => exact hi.decommit hcl hc hst
  | fault t va write frame room => exact hi.fault hcl hc hst

/-- **Commitment agrees**: from any reserved VADs, after every sequence of commits, decommits and
faults in which no step makes or meets a marker that its port reads wrongly, faults and commits find
committed what was decided last, and a rejected call changes nothing. -/
theorem commit_agrees {h₀ : CommitHistory T} (hfresh : Fresh p h₀)
    (hrun : Reaches (step p) (fun h a => Called p a ∧ h.Calm p a) h₀ h) : Agrees p h :=
  (hrun.invariant (I := Inv p) hfresh.inv fun _ _ _ hi hC hst => hi.step hC.1 hC.2 hst).agrees

/-! ## A VAD of four pages -/

/-- A VAD of four pages, just reserved without a commit. -/
def sample : CommitHistory Bool where
  memory := ⟨[⟨⟨0x10000, 4⟩, false, true, 3, none, 0⟩], ⟨fun _ => none⟩, none⟩
  decided _ := false

theorem sample_fresh (p : Port) : sample.Fresh p where
  vads := by
    refine ⟨pairwise_singleton _ _, ?_, ?_, ?_⟩ <;> intro v hv <;>
      obtain rfl := mem_singleton.1 hv
    · decide
    · decide
    · cases p <;> decide
  owner := rfl
  zero _ _ _ _ := rfl
  decided v hv page _ := by
    obtain rfl := mem_singleton.1 hv
    rfl

/-- Commit two pages, use one, decommit it and commit it again. -/
def sampleCalls : List (CommitAction Bool) :=
  [.commit true 0x10000 2 0 fun _ => true,
    .fault true 0x10008 true (some 7) fun _ => true,
    .decommit false 0x10000 1 fun _ => true,
    .commit false 0x10000 1 0 fun _ => true]

theorem sampleCalls_called (p : Port) : ∀ a ∈ sampleCalls, Called p a := by
  have hrn : ∀ {startVa n : Nat}, startVa % pageSize = 0 → startVa ≤ 0x10000 → n ≤ 2 →
      RangeOk p startVa n := by
    intro startVa n hal hs hn
    have hsize : (0x10000 : Nat) < p.addresses := by cases p <;> decide
    exact ⟨hal, hs.trans_lt hsize, (Nat.mul_le_mul_right pageSize hn).trans_lt
      ((show 2 * pageSize < 0x10000 by decide).trans hsize)⟩
  intro a ha
  simp only [sampleCalls, mem_cons, not_mem_nil, or_false] at ha
  rcases ha with rfl | rfl | rfl | rfl
  · exact ⟨hrn (by decide) (by decide) (by decide), fun _ => rfl⟩
  · exact fun _ => rfl
  · exact ⟨hrn (by decide) (by decide) (by decide), fun _ => rfl⟩
  · exact ⟨hrn (by decide) (by decide) (by decide), fun _ => rfl⟩

/-- On the ARM port the pages are as decided at the end of the calls. -/
theorem commit_agrees_sample : ∃ h : CommitHistory Bool,
      Reaches (step .arm) (fun h a => Called .arm a ∧ h.Calm .arm a) sample h ∧
        h.decided 0x10 = true ∧ h.decided 0x12 = false ∧ Agrees .arm h := by
  obtain ⟨h, hrn, hc⟩ := (Option.any_eq_true
    (fun h : CommitHistory Bool => h.decided 0x10 && !h.decided 0x12)
    (runChecked (step .arm)
      (fun h a => match a with
        | .fault _ va _ _ _ =>
          mmIsCommittedPte .arm (h.memory.tables.view .arm (va / pageSize))
        | _ => true)
      sampleCalls sample)).1 (by decide +kernel)
  rw [Bool.and_eq_true, Bool.not_eq_true'] at hc
  have hrc : Reaches (step .arm) (fun h a => Called .arm a ∧ h.Calm .arm a) sample h := by
    refine .of_runChecked_mem (fun u a ha hok => ⟨sampleCalls_called .arm a ha, ?_⟩) hrn
    cases a with
    | commit t startVa n protection room => exact .inl rfl
    | decommit t startVa n room => exact .inl rfl
    | fault t va write frame room => exact fun _ _ => .inr (.inr hok)
  exact ⟨h, hrc, hc.1, hc.2, commit_agrees (sample_fresh .arm) hrc⟩

/-- On amd64 a page is not committed after its commit: the fault on it is an access violation. -/
theorem commit_not_read_back : ∃ h : CommitHistory Bool,
      Reaches (step .amd64) (fun _ a => Called .amd64 a) sample h ∧
        sample.Fresh .amd64 ∧ h.decided 0x10 = true ∧ ¬ Agrees .amd64 h := by
  obtain ⟨h, hrn, hts⟩ := (Option.any_eq_true (fun h : CommitHistory Bool => h.decided 0x10 &&
      (Port.amd64.mmLookUpVadByAddress h.memory.vads 0x10000).isSome &&
      (h.memory.mmPageFault .amd64 true (fun _ => true) 0x10000 false (some 7)).any
        fun r => decide (r.1 = FaultStatus.accessViolation))
    (runChecked (step .amd64) (fun _ _ => true) (sampleCalls.take 1) sample)).1
    (by decide +kernel)
  simp only [Bool.and_eq_true, Option.any_eq_true, decide_eq_true_eq] at hts
  obtain ⟨⟨hc, hv⟩, r, hr, hav⟩ := hts
  obtain ⟨v, hv⟩ := isSome_iff_exists.1 hv
  refine ⟨h, .of_runChecked_mem (fun u a ha _ => sampleCalls_called .amd64 a
    (mem_of_mem_take ha)) hrn, sample_fresh .amd64, hc, fun hag => ?_⟩
  obtain ⟨s', hs'⟩ := (hag.faults true (fun _ => true) 0x10000 v 7 (fun _ => rfl) hv).2 hc
  rw [hs', some.injEq] at hr
  rw [← hr] at hav
  cases hav

end CommitHistory

end Boron.Mm
