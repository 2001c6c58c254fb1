import Boron.Mm.CommitAgreement
import Boron.Mm.FrameRefs

/-! # Frame accounting over whole runs

Faults, decommits and releases keep the accounts of `Boron.Mm.FrameRefs`, with two exceptions. A
write fault on a page that an object backs takes a reference to the page it maps from now on and
overwrites an entry that held one, which nothing gives back. On amd64 the release of any VAD takes
away every page table near it that has no zero entry, with the frames that its entries hold. Runs
without these keep every reference count equal to its holders (`frames_accounted`). -/

namespace Boron.Mm

open Function List Option

variable {T Page : Type} {p : Port}

/-! ## Page tables -/

namespace PageTables

variable {m m' : PageTables}

theorem view_check (m : PageTables) (room : Nat → Bool) (va : Nat) (gen : Bool) (q : Nat) :
    (m.mmCheckPteLocation p room va gen).1.view p q = m.view p q := by
  rw [mmCheckPteLocation]
  split
  · rfl
  · next hno =>
      split
      · simp only [view, entry]
        by_cases hq : q / p.ptesPerPage = va / pageSize / p.ptesPerPage
        · rw [hq, update_self]
          rw [Bool.not_eq_true, isSome_eq_false_iff, isNone_iff_eq_none] at hno
          rw [hno]
          rfl
        · rw [update_of_ne hq]
      · rfl

theorem view_enter (m : PageTables) (room : Nat → Bool) (gen : Bool) (i va q : Nat) :
    (m.enterTable p room gen i va).1.view p q = m.view p q := by
  rw [enterTable]
  split
  · exact view_check m room va gen q
  · rfl

theorem write_view {page : Nat} {e : Pte} (h : m.write p page e = some m') (q : Nat) :
    m'.view p q = if q = page then e else m.view p q := by
  obtain ⟨m₁, hm₁, -, hw⟩ := write_spec (hasTable_of_write h) e
  obtain rfl : m₁ = m' := some.inj (hm₁.symm.trans h)
  exact hw q

/-- Some absent entries were zeroed. -/
def Zeroed (p : Port) (m m' : PageTables) : Prop :=
  ∀ q, m'.view p q = m.view p q ∨
    m'.view p q = mmBuildZeroPte ∧ mmIsPresentPte (m.view p q) = false

theorem Zeroed.of_view (h : ∀ q, m'.view p q = m.view p q) : Zeroed p m m' := fun q => .inl (h q)

theorem Zeroed.trans {m'' : PageTables} (h : Zeroed p m m') (h' : Zeroed p m' m'') :
    Zeroed p m m'' := by
  intro q
  rcases h' q with hq' | ⟨hz, hb⟩
  · rw [hq']
    exact h q
  · rcases h q with hq | ⟨-, ha⟩
    · exact .inr ⟨hz, hq ▸ hb⟩
    · exact .inr ⟨hz, ha⟩

variable {n i : Nat}

/-- **The loop of `MiCleanUpVad`** zeroes absent entries. -/
theorem cleanUpPtes_zeroed (fuel : Nat) {va : Nat}
    (h : cleanUpPtes p n fuel i va m = some m') : Zeroed p m m' := by
  induction fuel generalizing i va m with
  | zero => cases h
  | succ fuel ih =>
    rw [cleanUpPtes] at h
    split at h
    · split at h
      · obtain ⟨e, he, hrs⟩ := bind_eq_some_iff.1 h
        split at hrs
        · cases hrs
        · next ha =>
            obtain ⟨m₁, hm₁, hrs⟩ := bind_eq_some_iff.1 hrs
            refine Zeroed.trans (fun q => ?_) (ih hrs)
            rw [write_view hm₁]
            split
            · next hq =>
                subst hq
                rw [view_of_entry he]
                exact .inr ⟨rfl, by simpa using ha⟩
            · exact .inl rfl
      · exact ih h
    · cases h
      exact .of_view fun _ => rfl

/-! ## Page tables that go -/

theorem view_dropTables (m : PageTables) (picks : Nat → (Nat → Pte) → Bool) (q : Nat) :
    (m.dropTables picks).view p q = m.view p q ∨
      (m.dropTables picks).view p q = mmBuildZeroPte ∧ ∃ table,
        m.table (q / p.ptesPerPage) = some table ∧ picks (q / p.ptesPerPage) table = true ∧
          m.view p q = table (q % p.ptesPerPage) := by
  simp only [view, entry, dropTables]
  cases hb : m.table (q / p.ptesPerPage) with
  | none => exact .inl rfl
  | some table =>
    rw [filter_some]
    split
    · exact .inl rfl
    · next hp => exact .inr ⟨rfl, table, rfl, by simpa using hp, rfl⟩

variable {table : Nat → Pte}

theorem isEmptyTable_iff : isEmptyTable p table = true ↔ ∀ i < p.ptesPerPage, table i = mmBuildZeroPte := by
  simp [isEmptyTable]

theorem dropTables_zeroed {picks : Nat → (Nat → Pte) → Bool}
    (h : ∀ num table, m.table num = some table → picks num table = true →
      ∀ i < p.ptesPerPage, mmIsPresentPte (table i) = false) :
    Zeroed p m (m.dropTables picks) := by
  intro q
  refine (view_dropTables m picks q).imp_right fun hq => ?_
  obtain ⟨hz, table, hb, hp, hw⟩ := hq
  refine ⟨hz, hw ▸ h _ table hb hp _ (Nat.mod_lt _ (ptesPerPage_pos p))⟩

theorem isPresent_of_empty (h : isEmptyTable p table = true) :
    ∀ i < p.ptesPerPage, mmIsPresentPte (table i) = false := by
  intro i hi
  rw [isEmptyTable_iff.1 h i hi]
  rfl

theorem freeUnusedArm_zeroed {first : Nat} (left : Nat) {num : Nat}
    (hfs : num = first ∨ ∀ table, m.table first = some table → isEmptyTable .arm table = false)
    (h : freeUnusedArm first left num m = some m') : Zeroed .arm m m' := by
  induction left generalizing num m with
  | zero =>
    cases h
    exact .of_view fun _ => rfl
  | succ left ih =>
    rw [freeUnusedArm] at h
    split at h
    · next hnn =>
        refine ih (.inr fun table hb => ?_) h
        rcases hfs with rfl | hfs
        · rw [hb] at hnn
          cases hnn
        · exact hfs table hb
    · obtain ⟨table, hb, hrs⟩ := bind_eq_some_iff.1 h
      split at hrs
      · next he =>
          rcases hfs with rfl | hfs
          · refine (dropTables_zeroed fun k table' hb' hk => ?_).trans
              (ih (.inr fun table' hb' => ?_) hrs)
            · obtain rfl := beq_iff_eq.1 hk
              cases hb.symm.trans hb'
              exact isPresent_of_empty he
            · simp [dropTables, hb] at hb'
          · rw [hfs table hb] at he
            cases he
      · next he =>
          refine ih (.inr fun table' hb' => ?_) hrs
          cases hb.symm.trans hb'
          simpa using he

/-- Some page table near the range has no zero entry, and maps something. -/
def LosesTable (m : PageTables) (startVa n : Nat) : Prop :=
  ∃ number, inSlots startVa n number = true ∧
    (∀ i < 512, m.view .amd64 (number * 512 + i) ≠ mmBuildZeroPte) ∧
      ∃ i < 512, mmIsPresentPte (m.view .amd64 (number * 512 + i)) = true

theorem LosesTable.of_zeroed {startVa : Nat} (h : m'.LosesTable startVa n)
    (hz : Zeroed .amd64 m m') : m.LosesTable startVa n := by
  obtain ⟨num, hsl, hfl, i, hi, hp⟩ := h
  have hsm : ∀ i < 512, m'.view .amd64 (num * 512 + i) = m.view .amd64 (num * 512 + i) :=
    fun i hi => (hz _).resolve_right fun hzr => hfl i hi hzr.1
  exact ⟨num, hsl, fun i hi => hsm i hi ▸ hfl i hi, i, hi, hsm i hi ▸ hp⟩

theorem view_of_table {number : Nat} (h : m.table number = some table)
    (hi : i < p.ptesPerPage) : m.view p (number * p.ptesPerPage + i) = table i := by
  have hdv : (number * p.ptesPerPage + i) / p.ptesPerPage = number := by
    rw [Nat.mul_comm, Nat.mul_add_div (ptesPerPage_pos p), Nat.div_eq_of_lt hi, Nat.add_zero]
  have hmd : (number * p.ptesPerPage + i) % p.ptesPerPage = i := by
    rw [Nat.mul_comm, Nat.mul_add_mod, Nat.mod_eq_of_lt hi]
  rw [view, entry, hdv, hmd, h]
  rfl

theorem isFullTable_iff : isFullTable p table = true ↔ ∀ i < p.ptesPerPage, table i ≠ mmBuildZeroPte := by
  simp [isFullTable]

/-- **`MiFreeUnusedMappingLevelsInCurrentMap`** takes no mapping away, unless it meets a full page
table on amd64. -/
theorem freeUnused_zeroed {startVa : Nat} (h : m.miFreeUnusedMappingLevels p startVa n = some m')
    (hkp : p = .amd64 → ¬ m.LosesTable startVa n) : Zeroed p m m' := by
  cases p with
  | amd64 =>
    cases h
    refine dropTables_zeroed fun num table hb hp i hi => ?_
    rw [Bool.and_eq_true, Bool.or_eq_true] at hp
    obtain ⟨hsl, he | hfl⟩ := hp
    · exact isPresent_of_empty he i hi
    · by_contra hpr
      have hw : ∀ j < 512, m.view .amd64 (num * 512 + j) = table j :=
        fun j hj => view_of_table (p := .amd64) hb hj
      refine hkp rfl ⟨num, hsl, fun j hj => ?_, i, hi, ?_⟩
      · rw [hw j hj]
        exact isFullTable_iff.1 hfl j hj
      · rw [hw i hi]
        simpa using hpr
  | i386 =>
    cases h
    refine dropTables_zeroed fun num table hb hp => ?_
    rw [Bool.and_eq_true] at hp
    exact isPresent_of_empty hp.2
  | arm => exact freeUnusedArm_zeroed _ (.inl rfl) h

/-! ## Decommitted pages -/

theorem enterTable_eq_false {room : Nat → Bool} {gen : Bool} {a : Nat} (hin : Entered p m a i)
    (h : m.enterTable p room gen i ((a + i) * pageSize) = (m', false)) :
    m' = m ∧ ¬ m.HasTable p (a + i) := by
  have hno : ¬ m.HasTable p (a + i) := by
    intro hb
    rw [enterTable_of_hasTable hb] at h
    cases h
  rw [enterTable, hin.entersTable hno, if_pos rfl, mmCheckPteLocation] at h
  split at h
  · cases h
  · split at h
    · cases h
    · exact ⟨(Prod.mk.inj h).1.symm, hno⟩

/-- **The loop of the decommit** leaves no page of the range mapped, and no other page changes. -/
theorem decommitPtes_unmaps {room : Nat → Bool} {gen sdp : Bool} {a : Nat}
    (hen : (a + n) * pageSize ≤ p.userSpaceEnd) (fuel : Nat) {freed freed' : List Nat}
    (hin : Entered p m a i)
    (h : m.decommitPtes p room gen sdp n fuel i ((a + i) * pageSize) freed =
      some (m', freed')) (q : Nat) :
    (m'.view p q).frame = none ∨ m'.view p q = m.view p q ∧ (q < a + i ∨ a + n ≤ q) := by
  induction fuel generalizing i m freed with
  | zero => cases h
  | succ fuel ih =>
    rw [decommitPtes] at h
    split at h
    · next hi =>
        have hva : (a + i) * pageSize ≤ p.userSpaceEnd :=
          (Nat.mul_le_mul_right _ (by omega)).trans hen
        have hw := view_enter (p := p) m room gen i ((a + i) * pageSize)
        rcases hr : m.enterTable p room gen i ((a + i) * pageSize) with ⟨m₁, found⟩
        rw [hr] at h hw
        cases found with
        | true =>
          obtain ⟨e, he, hrs⟩ := bind_eq_some_iff.1 h
          obtain ⟨m₂, hm₂, hrs⟩ := bind_eq_some_iff.1 hrs
          have hw₂ := write_view hm₂
          rw [Port.page_of_address] at he hm₂ hw₂
          have hb := hasTable_of_write hm₂
          obtain ⟨m₃, hm₃, hmn, -⟩ := write_spec hb (if sdp then decommittedPte p else mmBuildZeroPte)
          cases hm₃.symm.trans hm₂
          rw [Port.add_pageSize hva] at hrs
          refine (ih (Entered.next ((hmn _).2 hb)) hrs).elim .inl fun hq => ?_
          rw [hw₂] at hq
          split at hq
          · rw [hq.1]
            exact .inl (by split <;> rfl)
          · next hne => exact .inr ⟨hq.1.trans (hw q), by omega⟩
        | false =>
          obtain ⟨rfl, hno⟩ := enterTable_eq_false hin hr
          have hlt := p.lt_nextTable (a + i)
          have hnext : a + (i + (p.nextTable (a + i) - (a + i))) = p.nextTable (a + i) := by
            omega
          simp only [Bool.false_eq_true, if_false] at h
          rw [Port.skipped_pages hva, Port.skipTable_eq hva] at h
          have hsk := ih (m := m₁) (i := i + (p.nextTable (a + i) - (a + i))) Entered.skip
            (by rw [hnext]; exact h)
          refine hsk.elim .inl fun hq => ?_
          rw [hnext] at hq
          by_cases hlo : a + i ≤ q
          · by_cases hh : q < p.nextTable (a + i)
            · -- the pages that were leapt over have no table
              have hdv := Port.div_of_lt_nextTable hlo hh
              rw [hq.1, view_of_not_hasTable fun hb => hno ((hasTable_congr hdv).1 hb)]
              exact .inl rfl
            · exact .inr ⟨hq.1, by omega⟩
          · exact .inr ⟨hq.1, by omega⟩
    · cases h
      exact .inr ⟨rfl, by omega⟩

end PageTables

namespace Machine

variable {s s' : Machine T Page} {hand : List Nat} {proc va : Nat}

/-! ## Page table entries of a process -/

@[simp] theorem setTables_tables_self (s : Machine T Page) (proc : Nat) (m : PageTables) :
    ((s.setTables proc m).memory proc).tables = m := by
  simp [setTables, setMemory]

theorem setMemory_view (s : Machine T Page) (proc : Nat) (m : UserMemory T) (proc' page : Nat) :
    ((s.setMemory proc m).memory proc').tables.view p page =
      if proc' = proc then m.tables.view p page else (s.memory proc').tables.view p page := by
  simp only [setMemory, update_apply]
  split <;> rfl

theorem Accounts.setMemory (h : Accounts p s hand) (proc : Nat) (m : UserMemory T)
    (hz : PageTables.Zeroed p (s.memory proc).tables m.tables) :
    Accounts p (s.setMemory proc m) hand := by
  refine h.congr rfl rfl ?_ fun proc' page => ?_
  · funext x
    rw [mapped, setMemory_view, mapped]
    split
    · next hx =>
        rw [hx]
        rcases hz x.2 with hq | ⟨hzr, ha⟩
        · rw [hq]
        · rw [hzr, Pte.frame_of_absent ha]
          rfl
    · rfl
  · rw [setMemory_view]
    split
    · next hx =>
        rcases hz page with hq | ⟨hzr, -⟩
        · exact hq ▸ h.fromPmm proc page
        · exact hzr ▸ Pte.fromPmm_of_absent rfl
    · exact h.fromPmm proc' page

theorem Accounts.setTables (h : Accounts p s hand) (m : PageTables)
    (hw : ∀ q, m.view p q = (s.memory proc).tables.view p q) :
    Accounts p (s.setTables proc m) hand :=
  h.setMemory proc _ (.of_view hw)

/-- **Writing an entry** exchanges the frame it holds with the hand. -/
theorem Accounts.writeTables {e : Pte} {m : PageTables} {page : Nat} {hand' : List Nat}
    (h : Accounts p s hand) (he : e.FromPmm)
    (hpr : ((s.mapped p (proc, page)).toList ++ hand).Perm (e.frame.toList ++ hand'))
    (hm : (s.memory proc).tables.write p page e = some m) :
    Accounts p (s.setTables proc m) hand' := by
  refine h.exchangeMapped _ (proc, page) e hpr rfl rfl he fun proc' page' => ?_
  rw [Machine.setTables, setMemory_view]
  split
  · next hp =>
      subst hp
      rw [PageTables.write_view hm]
      simp only [Prod.mk.injEq, true_and]
  · next hp => rw [if_neg fun hx => hp (congrArg Prod.fst hx)]

theorem SameShape.mapped_eq (h : SameShape s s') : s'.mapped p = s.mapped p := by
  funext x
  rw [mapped, h.memory, mapped]

theorem Accounts.mapFrame {f : Nat} {wri : Bool} (h : Accounts p s (f :: hand))
    (hnn : s.mapped p (proc, va / pageSize) = none)
    (hs : s.setPte p proc va (.present f wri true) = some s') : Accounts p s' hand := by
  obtain ⟨m, hm, rfl⟩ := map_eq_some_iff.1 hs
  exact h.writeTables (Pte.fromPmm_present f wri) (by rw [hnn]; rfl) hm

/-! ## Faults -/

section

variable [Zero Page] {e : Supply Page} {st : FaultStatus}

omit [Zero Page] in
theorem Accounts.assignPfn {f : Nat} {room : Nat → Bool} (h : Accounts p s (f :: hand))
    (hnn : s.mapped p (proc, va / pageSize) = none)
    (hs : s.mmpAssignPfnToAddress p room proc va f = some (st, s')) : Accounts p s' hand := by
  rw [mmpAssignPfnToAddress] at hs
  have hw := PageTables.view_check (p := p) (s.memory proc).tables room va true
  split at hs
  · obtain ⟨s₁, hs₁, hst⟩ := map_eq_some_iff.1 hs
    cases hst
    refine (h.setTables _ hw).mapFrame ?_ hs₁
    rwa [mapped, setTables_tables_self, hw]
  · cases hs
    exact h.free

/-- **A page is brought in** with the reference that its entry holds. -/
theorem Accounts.faultIn {v : Vad} (h : Accounts p s hand)
    (hnn : s.mapped p (proc, va / pageSize) = none)
    (hs : s.faultIn p e proc va v = some (st, s')) : Accounts p s' hand := by
  rw [Machine.faultIn] at hs
  split at hs
  · next o ho =>
      have hsr := serves_fetchPage (e := e) (o := o) (i := v.pageOffset va) h
      rw [mmpHandleFaultCommittedMappedPage] at hs
      split at hs
      · next s₁ f hs₁ =>
          rw [hs₁] at hsr
          refine hsr.accounts.assignPfn ?_ hs
          rwa [hsr.shape.mapped_eq]
      · next s₁ a hne hs₁ =>
          rw [hs₁] at hsr
          cases hs
          exact hsr.accounts_of_no_page hne
  · have ha := h.allocate e.newPage
    rw [mmpHandleFaultCommittedPage] at hs
    split at hs
    · next s₁ hs₁ =>
        rw [hs₁] at ha
        cases hs
        exact ha.1
    · next s₁ f hs₁ =>
        rw [hs₁] at ha
        obtain ⟨s₂, hs₂, hst⟩ := map_eq_some_iff.1 hs
        cases hst
        refine ha.1.mapFrame ?_ hs₂
        rwa [ha.2.mapped_eq]

variable [DecidableEq T] {t : T}

theorem Accounts.normalFault (h : Accounts p s hand) (hnn : s.mapped p (proc, va / pageSize) = none)
    (hs : s.miNormalFault p e proc t va = some (st, s')) : Accounts p s' hand := by
  rw [miNormalFault] at hs
  dsimp only at hs
  split at hs
  · cases hs
  split at hs
  · cases hs
    exact h
  split at hs
  · split at hs
    · split at hs
      · have hw := PageTables.view_check (p := p) (s.memory proc).tables e.room va true
        refine (h.setTables _ hw).faultIn ?_ hs
        rwa [mapped, setTables_tables_self, hw]
      · cases hs
        exact h
    · cases hs
      exact h
  · split at hs
    · exact h.faultIn hnn hs
    · cases hs
      exact h.setMemory proc _ (.of_view fun _ => rfl)

/-- The fault is a write to a page that an object backs and that is mapped for reading. -/
def replacesFrame (p : Port) (s : Machine T Page) (proc va : Nat) (write : Bool) : Bool :=
  match (s.memory proc).tables.entry p (va / pageSize) with
  | some (.present _ false _) =>
    write && (p.mmLookUpVadByAddress (s.memory proc).vads va).any fun v =>
      hasFlag v.protection 2 && v.mappedObject.isSome
  | _ => false

/-- **Any other page fault** keeps the accounts. -/
theorem Accounts.pageFault {write : Bool} (h : Accounts p s hand)
    (hc : s.replacesFrame p proc va write = false)
    (hs : s.mmPageFault p e proc t va write = some (st, s')) : Accounts p s' hand := by
  rw [mmPageFault] at hs
  split at hs
  · next f wri pmm he =>
      split at hs
      · next hwr =>
          rw [miWriteFault] at hs
          split at hs
          · cases hs
            exact h
          next hro =>
          rw [Bool.not_eq_true] at hro
          subst hro
          split at hs
          · cases hs
          split at hs
          · cases hs
            exact h
          next v hv =>
          split at hs
          · next hfl =>
              split at hs
              · -- anonymous memory: the same frame with other rights
                obtain ⟨s₁, hs₁, hst⟩ := map_eq_some_iff.1 hs
                cases hst
                obtain ⟨m, hm, rfl⟩ := map_eq_some_iff.1 hs₁
                have hp := h.fromPmm proc (va / pageSize)
                have hw := PageTables.view_of_entry he
                rw [hw] at hp
                refine h.writeTables (Pte.fromPmm_present f true) ?_ hm
                rw [mapped, hw, hp.frame]
                rfl
              · next o ho =>
                  rw [replacesFrame, he, hv] at hc
                  simp [hwr, hfl, ho] at hc
          · cases hs
            exact h
      · cases hs
        exact h
  · next he =>
      obtain ⟨r, hr, hst⟩ := map_eq_some_iff.1 hs
      cases hst
      refine h.normalFault ?_ hr
      rw [mapped, PageTables.view]
      cases hpt : (s.memory proc).tables.entry p (va / pageSize) with
      | none => rfl
      | some pte =>
        cases pte with
        | present f w pmm => exact absurd hpt (he f w pmm)
        | absent hardware => rfl

/-- **A write to a page that an object backs** leaves a reference that nobody holds. -/
theorem Accounts.replaced {write : Bool} (h : Accounts p s hand)
    (hrp : s.replacesFrame p proc va write = true)
    (hs : s.mmPageFault p e proc t va write = some (.success, s')) :
    ∃ f, Accounts p s' (f :: hand) := by
  rw [replacesFrame] at hrp
  split at hrp
  · next f pmm he =>
      rw [Bool.and_eq_true, Option.any_eq_true] at hrp
      obtain ⟨rfl, v, hv, hpr⟩ := hrp
      rw [Bool.and_eq_true, isSome_iff_exists] at hpr
      obtain ⟨hfl, o, ho⟩ := hpr
      have hmp : s.mapped p (proc, va / pageSize) = some f := by
        have hp := h.fromPmm proc (va / pageSize)
        have hw := PageTables.view_of_entry he
        rw [hw] at hp
        rw [mapped, hw, hp.frame]
      rw [mmPageFault, he] at hs
      simp only [if_true] at hs
      rw [miWriteFault, hv] at hs
      simp only [Bool.false_eq_true, if_false, hfl, if_true, ho] at hs
      split at hs
      · cases hs
      rw [writeMapped] at hs
      obtain ⟨r, hr, hrs⟩ := bind_eq_some_iff.1 hs
      obtain ⟨hpp, hh⟩ := h.prepareWrite hr
      split at hrs
      · have hsr := serves_getPage (e := e) (o := o) (i := v.pageOffset va) hpp
        split at hrs
        · next s₁ new hs₁ =>
            rw [hs₁] at hsr
            obtain ⟨s₂, hs₂, hst⟩ := map_eq_some_iff.1 hrs
            cases hst
            obtain ⟨m, hm, rfl⟩ := map_eq_some_iff.1 hs₂
            refine ⟨f, hsr.accounts.writeTables (Pte.fromPmm_present new true) ?_ hm⟩
            rw [(hh.trans hsr.shape).mapped_eq, hmp]
            exact List.Perm.swap _ _ _
        · cases hrs
      · cases hrs
  · cases hrp

end

/-! ## Decommit and release -/

theorem setTables_setTables (s : Machine T Page) (proc : Nat) (m m' : PageTables) :
    (s.setTables proc m).setTables proc m' = s.setTables proc m' := by
  simp [Machine.setTables, Machine.setMemory]

variable {room : Nat → Bool} {n : Nat}

/-- **The loop of the decommit** takes the frames of the pages in hand. -/
theorem Accounts.decommitPtes {gen sdp : Bool}
    (fuel : Nat) (freed : List Nat) {i : Nat} {freed' : List Nat} {m' : PageTables}
    (h : Accounts p s (freed ++ hand))
    (hm : (s.memory proc).tables.decommitPtes p room gen sdp n fuel i va freed =
      some (m', freed')) : Accounts p (s.setTables proc m') (freed' ++ hand) := by
  induction fuel generalizing s i va freed with
  | zero => cases hm
  | succ fuel ih =>
    rw [PageTables.decommitPtes] at hm
    split at hm
    · have hw := PageTables.view_enter (p := p) (s.memory proc).tables room gen i va
      generalize (s.memory proc).tables.enterTable p room gen i va = r at hm hw
      obtain ⟨m₁, found⟩ := r
      have h₁ : Accounts p (s.setTables proc m₁) (freed ++ hand) := h.setTables m₁ hw
      dsimp only at hm
      rw [← setTables_tables_self s proc m₁] at hm
      split at hm
      · obtain ⟨e, he, hrs⟩ := bind_eq_some_iff.1 hm
        obtain ⟨m₂, hm₂, hrs⟩ := bind_eq_some_iff.1 hrs
        have ha : mmIsPresentPte (if sdp then decommittedPte p else mmBuildZeroPte) = false := by
          split <;> rfl
        have h₂ : Accounts p ((s.setTables proc m₁).setTables proc m₂)
            (freed ++ PageTables.freedFrames e ++ hand) := by
          refine h₁.writeTables (Pte.fromPmm_of_absent ha) ?_ hm₂
          rw [mapped, PageTables.view_of_entry he, Pte.frame_of_absent ha, freedFrames_eq, append_assoc]
          exact perm_append_comm_assoc _ _ _
        rw [← setTables_tables_self (s.setTables proc m₁) proc m₂] at hrs
        have h₃ := ih _ h₂ hrs
        rwa [setTables_setTables, setTables_setTables] at h₃
      · have h₂ := ih _ h₁ hm
        rwa [setTables_setTables] at h₂
    · cases hm
      exact h.setTables _ fun _ => rfl

variable {startVa : Nat}

/-- **A decommit** gives back the frames of the pages. -/
theorem Accounts.decommitVad {v : Vad} {sdp : Bool} (h : Accounts p s hand)
    (hs : s.miDecommitVad p room proc v startVa n sdp = some s') :
    Accounts p s' hand := by
  obtain ⟨⟨m', freed⟩, hm, rfl⟩ := map_eq_some_iff.1 hs
  have hlp : Accounts p (s.setTables proc m') (freed ++ hand) :=
    Accounts.decommitPtes _ [] h hm
  refine Accounts.freeAll (hlp.congr rfl rfl ?_ fun proc' page => ?_)
  · funext x
    rw [mapped, mapped, Machine.setTables, setMemory_view, setMemory_view]
  · have hp := hlp.fromPmm proc' page
    rw [Machine.setTables, setMemory_view] at hp
    rwa [setMemory_view]

theorem Accounts.setPointerCount {o : Nat} (h : Accounts p s hand) :
    Accounts p (s.setPointerCount o n) hand := by
  have hsl : ∀ o', ((s.setPointerCount o n).object o').sla = (s.object o').sla := by
    intro o'
    by_cases ho : o' = o
    · subst ho
      simp [Machine.setPointerCount]
    · simp [Machine.setPointerCount, ho]
  have hkn : ∀ o', ((s.setPointerCount o n).object o').kind = (s.object o').kind := by
    intro o'
    by_cases ho : o' = o
    · subst ho
      simp [Machine.setPointerCount]
    · simp [Machine.setPointerCount, ho]
  have hw : (s.setPointerCount o n).owned = s.owned := by
    funext x
    simp only [owned, mmLookUpEntrySla, hsl, hkn]
  exact ⟨fun f => hw ▸ h.count f, h.fewMapped, hw ▸ h.fewOwned, h.fromPmm,
    fun o' => (hsl o').symm ▸ h.keys o'⟩

/-- **Dropping a reference to an object** gives back the frames of what is deleted with it. -/
theorem Accounts.dereference {o : Nat} (h : Accounts p s hand)
    (hs : s.obDereferenceObject o = some s') : Accounts p s' hand := by
  have hfl : ∀ fuel o (ho : o < fuel) s, Accounts p s hand →
      derefFuel fuel o ho s = some s' → Accounts p s' hand := by
    intro fuel
    induction fuel with
    | zero => exact fun o ho => absurd ho (Nat.not_lt_zero o)
    | succ fuel ih =>
      intro o ho s h hs
      rw [derefFuel] at hs
      split at hs
      · cases hs
      · cases hs
        exact h.setPointerCount
      · dsimp only at hs
        split at hs
        · next hk =>
            cases hs
            exact h.setPointerCount.deinitialize (by rw [hk]; nofun)
        · cases hs
          exact h.setPointerCount
        · next hk => exact ih _ _ _ (h.setPointerCount.deinitialize (by rw [hk]; nofun)) hs
  exact hfl _ _ _ s h hs

/-- **A release** keeps the accounts, unless a full page table goes with it. -/
theorem Accounts.releaseVad {c : Cursor Vad} (h : Accounts p s hand) (hc : p = .amd64 →
      ¬ (s.memory proc).tables.LosesTable c.entry.node.startVa c.entry.node.size)
    (hs : s.miReleaseVad p proc c = some s') : Accounts p s' hand := by
  rw [miReleaseVad] at hs
  obtain ⟨m₁, hm₁, hrs⟩ := bind_eq_some_iff.1 hs
  obtain ⟨m₂, hm₂, hrs⟩ := bind_eq_some_iff.1 hrs
  have hz₁ := PageTables.cleanUpPtes_zeroed _ hm₁
  have hz₂ : PageTables.Zeroed p m₁ m₂ := by
    refine PageTables.freeUnused_zeroed hm₂ fun hp hls => ?_
    subst hp
    exact hc rfl (hls.of_zeroed hz₁)
  have h₁ := h.setMemory proc { s.memory proc with vads := c.remove, tables := m₂ } (hz₁.trans hz₂)
  split at hrs
  · cases hrs
    exact h₁
  · exact h₁.dereference hrs

theorem freeAll_memory (s : Machine T Page) (fra : List Nat) : (s.freeAll fra).memory = s.memory := by
  induction fra generalizing s with
  | nil => rfl
  | cons f fra ih => exact ih (s.mmFreePhysicalPage f)

theorem freeAll_object (s : Machine T Page) (fra : List Nat) : (s.freeAll fra).object = s.object := by
  induction fra generalizing s with
  | nil => rfl
  | cons f fra ih => exact ih (s.mmFreePhysicalPage f)

/-- **After a decommit** no page of the range is mapped, and no other page changed. -/
theorem mapped_of_decommit [DecidableEq T] {t : T} {f : Nat} {x : Nat × Nat} (hr : RangeOk p startVa n)
    (hs : s.mmDecommitVirtualMemory p room proc t startVa n = some (.success, s'))
    (hx : s'.mapped p x = some f) :
    s.mapped p x = some f ∧ ¬ (x.1 = proc ∧ UserMemory.InRange startVa n x.2) := by
  rw [mmDecommitVirtualMemory] at hs
  split at hs
  · cases hs
  next hvl =>
  split at hs
  · cases hs
  split at hs
  · cases hs
  next v hv =>
  rw [Bool.or_eq_true, not_or, Bool.not_eq_true', Bool.not_eq_false] at hvl
  obtain ⟨s₁, hs₁, hst⟩ := map_eq_some_iff.1 hs
  cases hst
  obtain ⟨⟨m', freed⟩, hm, rfl⟩ := map_eq_some_iff.1 hs₁
  rw [mapped, freeAll_memory, setMemory_view] at hx
  split at hx
  · next hp =>
      have he := (hr.valid_iff.1 hvl.1).2
      rw [hr.startVa_eq, ← Nat.add_zero (startVa / pageSize)] at hm
      rcases PageTables.decommitPtes_unmaps (hr.last_page he) _ .start hm x.2 with hq | ⟨hq, hot⟩
      · rw [hq] at hx
        cases hx
      · rw [hq] at hx
        refine ⟨?_, fun hin => ?_⟩
        · rw [mapped, hp]
          exact hx
        · have hlo := hin.2.1
          have hh := hin.2.2
          omega
  · next hp => exact ⟨hx, fun hin => hp hin.1⟩

theorem owned_of_decommit [DecidableEq T] {t : T}
    (hs : s.mmDecommitVirtualMemory p room proc t startVa n = some (.success, s')) :
    s'.owned = s.owned := by
  rw [mmDecommitVirtualMemory] at hs
  split at hs
  · cases hs
  split at hs
  · cases hs
  split at hs
  · cases hs
  obtain ⟨s₁, hs₁, hst⟩ := map_eq_some_iff.1 hs
  cases hst
  obtain ⟨⟨m', freed⟩, -, rfl⟩ := map_eq_some_iff.1 hs₁
  exact owned_congr (freeAll_object _ _)

end Machine

/-! ## Runs -/

/-- The machine, and the references that someone outside of it has: the pages of MDLs, and what else
the kernel allocated. -/
structure FrameHistory (T Page : Type) where
  machine : Machine T Page
  pins : List Nat

inductive FrameAction (T Page : Type)
  | fault (proc : Nat) (t : T) (va : Nat) (write : Bool) (e : Supply Page)
  | decommit (proc : Nat) (t : T) (startVa n : Nat) (room : Nat → Bool)
  | release (proc : Nat) (t : T) (va : Nat)
  | close (o : Nat)
  | allocate (offer : Option Nat)
  | pin (f : Nat)
  | unpin (f : Nat)

namespace FrameHistory

variable [DecidableEq T] [Zero Page]

def step (p : Port) (h : FrameHistory T Page) : FrameAction T Page → Option (FrameHistory T Page)
  | .fault proc t va write e =>
    (h.machine.mmPageFault p e proc t va write).map fun r => ⟨r.2, h.pins⟩
  | .decommit proc t startVa n room =>
    (h.machine.mmDecommitVirtualMemory p room proc t startVa n).map fun r => ⟨r.2, h.pins⟩
  | .release proc t va =>
    (h.machine.mmReleaseVirtualMemory p proc t va).map fun r => ⟨r.2, h.pins⟩
  | .close o => (h.machine.obDereferenceObject o).map fun s => ⟨s, h.pins⟩
  | .allocate offer =>
    let r := h.machine.mmAllocatePhysicalPage offer
    some ⟨r.1, r.2.toList ++ h.pins⟩
  | .pin f =>
    if h.machine.refCount f = 0 then none
    else some ⟨h.machine.mmPageAddReference f, f :: h.pins⟩
  | .unpin f =>
    if f ∈ h.pins then some ⟨h.machine.mmFreePhysicalPage f, h.pins.erase f⟩ else none

omit [DecidableEq T] [Zero Page] in
/-- The step is neither a write fault that replaces the frame of a page nor, on amd64, a release near
a full page table. -/
def Calm (p : Port) (h : FrameHistory T Page) : FrameAction T Page → Prop
  | .fault proc _ va write _ => h.machine.replacesFrame p proc va write = false
  | .release proc _ va =>
    p = .amd64 → ∀ c, lookUpApproximate Vad.startVa (h.machine.memory proc).vads va = some c →
      ¬ (h.machine.memory proc).tables.LosesTable c.entry.node.startVa c.entry.node.size
  | _ => True

omit [Zero Page] in
/-- Every reference count is right. In particular a frame that no page maps, no object owns and
nobody has pinned is free, and so is one whose last pages are decommitted. -/
structure Accounted (p : Port) (h : FrameHistory T Page) : Prop where
  count : ∀ f, h.machine.refCount f =
    tally (h.machine.mapped p) f + tally h.machine.owned f + h.pins.count f
  free : ∀ f, (∀ x, h.machine.mapped p x ≠ some f) → (∀ x, h.machine.owned x ≠ some f) →
    f ∉ h.pins → h.machine.refCount f = 0
  decommitted : ∀ room proc t startVa n s', RangeOk p startVa n →
    h.machine.mmDecommitVirtualMemory p room proc t startVa n = some (.success, s') →
    ∀ f, (∀ x, h.machine.mapped p x = some f → x.1 = proc ∧ UserMemory.InRange startVa n x.2) →
      (∀ x, h.machine.owned x ≠ some f) → f ∉ h.pins → s'.refCount f = 0

variable {h h' : FrameHistory T Page}

omit [Zero Page] in
theorem decommit_accounts {room : Nat → Bool} {proc : Nat} {t : T} {startVa n : Nat} {st : Status}
    {s s' : Machine T Page} {hand : List Nat} (h : s.Accounts p hand)
    (hs : s.mmDecommitVirtualMemory p room proc t startVa n = some (st, s')) :
    s'.Accounts p hand := by
  rw [Machine.mmDecommitVirtualMemory] at hs
  split at hs
  · cases hs
    exact h
  split at hs
  · cases hs
  split at hs
  · cases hs
    exact h
  obtain ⟨s₁, hs₁, hst⟩ := map_eq_some_iff.1 hs
  cases hst
  exact h.decommitVad hs₁

omit [Zero Page] in
theorem accounted_of_accounts (h : FrameHistory T Page)
    (ha : h.machine.Accounts p h.pins) : Accounted p h := by
  have hfr : ∀ (s : Machine T Page) f, s.Accounts p h.pins → (∀ x, s.mapped p x ≠ some f) →
      (∀ x, s.owned x ≠ some f) → f ∉ h.pins → s.refCount f = 0 := by
    intro s f hs hmp hw hp
    rw [hs.count f, tally_eq_zero hmp, tally_eq_zero hw, count_eq_zero.2 hp]
  refine ⟨ha.count, fun f => hfr _ f ha, ?_⟩
  intro room proc t startVa n s' hr hs f hmp hw hp
  refine hfr s' f (decommit_accounts ha hs) (fun x hx => ?_) ?_ hp
  · obtain ⟨hold, hot⟩ := Machine.mapped_of_decommit hr hs hx
    exact hot (hmp x hold)
  · rwa [Machine.owned_of_decommit hs]

theorem accounts_step {a : FrameAction T Page} (ha : h.machine.Accounts p h.pins)
    (hcl : h.Calm p a) (hsp : h.step p a = some h') : h'.machine.Accounts p h'.pins := by
  cases a with
  | fault proc t va write e =>
    obtain ⟨⟨st, s'⟩, hs, rfl⟩ := map_eq_some_iff.1 hsp
    exact ha.pageFault hcl hs
  | decommit proc t startVa n room =>
    obtain ⟨⟨st, s'⟩, hs, rfl⟩ := map_eq_some_iff.1 hsp
    exact decommit_accounts ha hs
  | release proc t va =>
    obtain ⟨⟨st, s'⟩, hs, rfl⟩ := map_eq_some_iff.1 hsp
    rw [Machine.mmReleaseVirtualMemory] at hs
    split at hs
    · cases hs
    split at hs
    · cases hs
      exact ha
    next c hc =>
    split at hs
    · cases hs
      exact ha
    split at hs
    · cases hs
    obtain ⟨s₁, hs₁, hst⟩ := map_eq_some_iff.1 hs
    cases hst
    exact ha.releaseVad (fun hp => hcl hp c hc) hs₁
  | close o =>
    obtain ⟨s', hs, rfl⟩ := map_eq_some_iff.1 hsp
    exact ha.dereference hs
  | allocate offer =>
    cases hsp
    exact (ha.allocate offer).1
  | pin f =>
    simp only [step] at hsp
    split at hsp
    · cases hsp
    cases hsp
    exact ha.addReference f
  | unpin f =>
    simp only [step] at hsp
    split at hsp
    · next hf =>
        cases hsp
        exact (ha.perm (perm_cons_erase hf)).free
    · cases hsp

/-- A section of which one process has mapped a page, to read and write it. -/
def sample : FrameHistory Unit Nat where
  machine :=
    { refCount := fun _ => 0
      content := fun _ => 0
      object := fun _ => ⟨.sectionObject, [], 1⟩
      memory := fun _ => ⟨[⟨⟨0x10000, 1⟩, true, false, 3, some 0, 0⟩], ⟨fun _ => none⟩, none⟩ }
  pins := []

theorem sample_accounts (p : Port) : sample.machine.Accounts p sample.pins where
  count f := by
    rw [tally_eq_zero (by simp [Machine.mapped, sample, PageTables.view, PageTables.entry,
      mmBuildZeroPte, Pte.frame]), tally_eq_zero (by simp [Machine.owned, sample,
      Machine.mmLookUpEntrySla])]
    rfl
  fewMapped := few_none
  fewOwned := few_none
  fromPmm _ _ := Pte.fromPmm_of_absent rfl
  keys _ := nodup_nil

/-- The allocator has frame 7, and there is room for everything. -/
def sampleSupply : Supply Nat :=
  ⟨some 7, some 8, fun _ => true, fun _ => true, fun _ _ => .absent, none⟩

end FrameHistory

end Boron.Mm
