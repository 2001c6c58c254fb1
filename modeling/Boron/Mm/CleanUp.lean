import Mathlib.Data.Nat.Count
import Boron.Mm.CommitLoops
import Boron.Mm.Fault

/-! # The clean-up of a VAD (`mm/vad.c`)

`MiCleanUpVad` goes through the pages of a VAD in a `for` loop and leaps over the page tables that do
not exist. The `continue` after such a leap counts one page more, so that the loop ends a page early for
every page table that it leapt over (`skips`). The pages that it leaves out keep their entries. -/

namespace Boron.Mm

open List Option

namespace PageTables

variable {p : Port} {m m' : PageTables} {a n i q r : Nat}

/-- The loop of `MiCleanUpVad`, with the pages whose entries it writes. -/
def cleanUpTrace (p : Port) (n : Nat) :
    Nat → Nat → Nat → PageTables → Option (PageTables × List Nat)
  | 0, _, _, _ => none
  | fuel + 1, i, va, m =>
    if i < n then
      if (m.enterTable p (fun _ => false) false i va).2 then
        (m.entry p (va / pageSize)).bind fun e =>
          if mmIsPresentPte e then none
          else
            (m.write p (va / pageSize) mmBuildZeroPte).bind fun m =>
              (cleanUpTrace p n fuel (i + 1) (p.add va pageSize) m).map fun r =>
                (r.1, va / pageSize :: r.2)
      else
        cleanUpTrace p n fuel (i + p.sub (p.skipTable va) va / pageSize + 1) (p.skipTable va) m
    else some (m, [])

/-! ## Leaps -/

/-- There is no page table of this number. -/
def Missing (m : PageTables) (number : Nat) : Prop := (m.table number).isNone = true

instance (m : PageTables) : DecidablePred m.Missing := fun _ => inferInstanceAs (Decidable (_ = true))

/-- How many page tables are missing from that of page `a` to before that of page `q`. -/
def skips (p : Port) (m : PageTables) (a q : Nat) : Nat :=
  Nat.count m.Missing (q / p.ptesPerPage) - Nat.count m.Missing (a / p.ptesPerPage)

theorem missing_iff : m.Missing (q / p.ptesPerPage) ↔ ¬ m.HasTable p q := by
  rw [Missing, HasTable, isNone_iff_eq_none, isSome_iff_ne_none, not_not]

@[simp] theorem skips_self (p : Port) (m : PageTables) (a : Nat) : skips p m a a = 0 := Nat.sub_self _

theorem skips_mono (h : q ≤ r) : skips p m a q ≤ skips p m a r :=
  Nat.sub_le_sub_right (Nat.count_monotone _ (Nat.div_le_div_right h)) _

/-- No page table is leapt over on the way to the next page. -/
theorem skips_succ (h : m.HasTable p q) : skips p m a (q + 1) = skips p m a q := by
  rw [skips, skips, Nat.succ_div]
  split
  · rw [Nat.count_succ, if_neg (missing_iff.not_left.2 h)]
    rfl
  · rfl

theorem skips_nextTable (hq : a ≤ q) (h : ¬ m.HasTable p q) :
    skips p m a (p.nextTable q) = skips p m a q + 1 := by
  have hle := Nat.count_monotone m.Missing (Nat.div_le_div_right (c := p.ptesPerPage) hq)
  rw [skips, skips, Port.nextTable, Nat.mul_div_cancel _ (ptesPerPage_pos p), Nat.count_succ,
    if_pos (missing_iff.2 h)]
  omega

theorem skips_congr (h : ∀ q, m'.HasTable p q ↔ m.HasTable p q) (a q : Nat) :
    skips p m' a q = skips p m a q := by
  have hms : ∀ number, m'.Missing number ↔ m.Missing number := by
    intro number
    have hnm : number * p.ptesPerPage / p.ptesPerPage = number :=
      Nat.mul_div_cancel _ (ptesPerPage_pos p)
    rw [← hnm, missing_iff, missing_iff, h]
  have hcount : ∀ number, Nat.count m'.Missing number = Nat.count m.Missing number := fun _ =>
    Nat.le_antisymm (Nat.count_mono_left fun k _ hk => (hms k).1 hk)
      (Nat.count_mono_left fun k _ hk => (hms k).2 hk)
  rw [skips, skips, hcount, hcount]

/-! ## What the loop does -/

theorem entry_congr (hb : m'.HasTable p q ↔ m.HasTable p q) (hw : m'.view p q = m.view p q) :
    m'.entry p q = m.entry p q := by
  have hnn : ∀ {m : PageTables}, ¬ m.HasTable p q → m.entry p q = none := by
    intro m hm
    rw [entry, not_isSome_iff_eq_none.1 hm]
    rfl
  by_cases hm : m.HasTable p q
  · rw [entry_of_hasTable hm, entry_of_hasTable (hb.2 hm), hw]
  · rw [hnn hm, hnn (mt hb.1 hm)]

/-- The loop gets to the page: its number in the range, with the pages that were counted twice, is
still below the size. -/
def Visited (p : Port) (m : PageTables) (a n q : Nat) : Prop :=
  m.HasTable p q ∧ q - a + skips p m a q < n

instance (p : Port) (m : PageTables) (a n q : Nat) : Decidable (m.Visited p a n q) :=
  inferInstanceAs (Decidable (_ ∧ _))

/-- **The loop** writes the visited pages from where it stands, each once. -/
theorem cleanUpTrace_spec (hen : (a + n) * pageSize ≤ p.addresses)
    (ha : ∀ q, a ≤ q → q < a + n → mmIsPresentPte (m.view p q) = false) (fuel : Nat)
    (hfl : n - i < fuel) (haq : a ≤ q) (hi : i = q - a + skips p m a q)
    (hin : i = 0 ∨ q % p.ptesPerPage = 0 ∨ m.HasTable p q) :
    ∃ m' vis, cleanUpTrace p n fuel i (q * pageSize % p.addresses) m = some (m', vis) ∧
      vis.Nodup ∧ (∀ r, r ∈ vis ↔ q ≤ r ∧ m.Visited p a n r) ∧
      ∀ r, m'.entry p r = if r ∈ vis then some mmBuildZeroPte else m.entry p r := by
  induction fuel generalizing i q m with
  | zero => exact absurd hfl (Nat.not_lt_zero _)
  | succ fuel ih =>
    rw [cleanUpTrace]
    by_cases hlt : i < n
    · have hlst : (q + 1) * pageSize ≤ p.addresses :=
        (Nat.mul_le_mul_right _ (by omega)).trans hen
      have hva : q * pageSize < p.addresses :=
        (Nat.mul_lt_mul_of_pos_right q.lt_succ_self (by decide)).trans_le hlst
      rw [if_pos hlt, Nat.mod_eq_of_lt hva]
      by_cases hb : m.HasTable p q
      · rw [enterTable_of_hasTable hb, if_pos rfl, Port.page_of_address,
          entry_of_hasTable hb, bind_some,
          if_neg (by rw [ha q haq (by omega)]; exact Bool.false_ne_true)]
        obtain ⟨m₁, hm₁, hmn, hw₁⟩ := write_spec hb mmBuildZeroPte
        have hsk := skips_congr hmn a
        have hvd : ∀ r, m₁.Visited p a n r ↔ m.Visited p a n r := fun r => by
          rw [Visited, Visited, hmn, hsk]
        obtain ⟨m', vis, hm', hnd, hvs, he⟩ := ih (m := m₁) (q := q + 1) (i := i + 1)
          (fun r hr hr' => by
            rw [hw₁]
            split
            · exact isPresent_zero
            · exact ha r hr hr')
          (by omega) (by omega) (by rw [hsk, skips_succ hb, hi]; omega)
          (by
            by_cases hmd : (q + 1) % p.ptesPerPage = 0
            · exact .inr (.inl hmd)
            · exact .inr (.inr ((hasTable_congr (Nat.succ_div_of_mod_ne_zero hmd)).2 ((hmn q).2 hb))))
        have hnext : p.add (q * pageSize) pageSize = (q + 1) * pageSize % p.addresses := by
          rw [Port.add, Nat.add_mul, Nat.one_mul]
        refine ⟨m', q :: vis, ?_, ?_, fun r => ?_, fun r => ?_⟩
        · rw [hm₁, bind_some, hnext, hm', map_some]
        · exact nodup_cons.2 ⟨fun hq => absurd ((hvs q).1 hq).1 (by omega), hnd⟩
        · rw [mem_cons, hvs, hvd]
          constructor
          · rintro (rfl | ⟨hr, hrv⟩)
            · exact ⟨le_rfl, hb, hi ▸ hlt⟩
            · exact ⟨by omega, hrv⟩
          · rintro ⟨hr, hrv⟩
            rcases Nat.eq_or_lt_of_le hr with rfl | hr
            · exact .inl rfl
            · exact .inr ⟨hr, hrv⟩
        · rw [he]
          by_cases hr : r = q
          · subst hr
            rw [if_pos mem_cons_self]
            split
            · rfl
            · rw [entry_of_hasTable ((hmn r).2 hb), hw₁, if_pos rfl]
          · have hsm : m₁.entry p r = m.entry p r :=
              entry_congr (hmn r) ((hw₁ r).trans (if_neg hr))
            rw [hsm]
            exact if_congr ((or_iff_right hr).symm.trans mem_cons.symm) rfl rfl
      · -- a page table that is not there
        rw [enterTable_of_entersTable (hin.imp_right fun h => h.resolve_right hb) hb rfl,
          if_neg Bool.false_ne_true, Port.skipped_pages_of_lt hva, Port.skipTable_mod hva]
        have hnext := p.lt_nextTable q
        obtain ⟨m', vis, hm', hnd, hvs, he⟩ := ih (q := p.nextTable q)
          (i := i + (p.nextTable q - q) + 1) ha (by omega) (by omega)
          (by rw [skips_nextTable haq hb, hi]; omega) (.inr (.inl (p.nextTable_mod q)))
        refine ⟨m', vis, hm', hnd, fun r => (hvs r).trans ?_, he⟩
        refine ⟨fun h => ⟨by omega, h.2⟩, fun h => ⟨?_, h.2⟩⟩
        by_contra hls
        exact hb ((hasTable_congr (Port.div_of_lt_nextTable h.1 (by omega))).1 h.2.1)
    · rw [if_neg hlt]
      refine ⟨m, [], rfl, nodup_nil, fun r => iff_of_false not_mem_nil ?_, fun r => ?_⟩
      · rintro ⟨hr, -, hrn⟩
        have hmn := skips_mono (p := p) (m := m) (a := a) hr
        omega
      · rw [if_neg not_mem_nil]

/-- What the clean-up of `n` pages from `startVa` should do. -/
structure CleansUp (p : Port) (m : PageTables) (startVa n : Nat) (r : PageTables × List Nat) :
    Prop where
  cleared : ∀ q, startVa / pageSize ≤ q → q < startVa / pageSize + n → ∀ e, r.1.entry p q = some e →
    e = mmBuildZeroPte
  inside : ∀ q ∈ r.2, startVa / pageSize ≤ q ∧ q < startVa / pageSize + n
  outside : ∀ q, q ∉ r.2 → r.1.entry p q = m.entry p q
  once : r.2.Nodup

/-- **The clean-up of a VAD** whose pages are decommitted returns, and clears the range exactly if the
pages that it does not get to have no entry or a zero one. -/
theorem cleanUp_iff {startVa : Nat} (haligned : startVa % pageSize = 0)
    (hend : startVa + n * pageSize ≤ p.addresses)
    (habsent : ∀ q, startVa / pageSize ≤ q → q < startVa / pageSize + n →
      mmIsPresentPte (m.view p q) = false) :
    (∃ r, cleanUpTrace p n (n + 1) 0 startVa m = some r ∧ CleansUp p m startVa n r) ↔
      ∀ q, startVa / pageSize ≤ q → q < startVa / pageSize + n → m.HasTable p q →
        n ≤ q - startVa / pageSize + skips p m (startVa / pageSize) q →
          m.view p q = mmBuildZeroPte := by
  have hst : startVa = startVa / pageSize * pageSize := by
    have := Nat.div_add_mod startVa pageSize
    rw [haligned, Nat.mul_comm] at this
    omega
  have hft : (startVa / pageSize + n) * pageSize ≤ p.addresses := by
    rwa [Nat.add_mul, ← hst]
  rcases Nat.eq_zero_or_pos n with rfl | hn
  · refine iff_of_true ⟨(m, []), rfl, fun q hlo hh => absurd hh (by omega), nofun, fun _ _ => rfl,
      nodup_nil⟩ fun q hlo hh => absurd hh (by omega)
  obtain ⟨m', visits, hrn, hnd, hvs, hen⟩ := cleanUpTrace_spec (i := 0) hft habsent (n + 1)
    (by omega) le_rfl (by simp) (.inl rfl)
  have hva : startVa < p.addresses := by
    have : 0 < n * pageSize := Nat.mul_pos hn (by decide)
    omega
  rw [← hst, Nat.mod_eq_of_lt hva] at hrn
  constructor
  · rintro ⟨r, hr, hc⟩ q hlo hh hb hla
    cases hrn.symm.trans hr
    have hq : q ∉ visits := fun hq => by
      have hel := ((hvs q).1 hq).2.2
      omega
    refine hc.cleared q hlo hh _ ?_
    rw [hen, if_neg hq, entry_of_hasTable hb]
  · intro hla
    refine ⟨_, hrn, fun q hlo hh e he => ?_, fun q hq => ?_, fun q hq => ?_, hnd⟩
    · rw [hen] at he
      split at he
      · exact (some.inj he).symm
      · next hq =>
          by_cases hb : m.HasTable p q
          · rw [entry_of_hasTable hb] at he
            rw [← some.inj he]
            refine hla q hlo hh hb (Nat.le_of_not_lt fun hel => hq ?_)
            exact (hvs q).2 ⟨hlo, hb, hel⟩
          · rw [entry, not_isSome_iff_eq_none.1 hb] at he
            cases he
    · obtain ⟨hlo, -, hel⟩ := (hvs q).1 hq
      exact ⟨hlo, by omega⟩
    · rw [hen, if_neg hq]

/-- The entries of the second page table (of amd64) are marked as decommitted, and there is no other
page table. -/
def secondTable : PageTables :=
  ⟨fun number => if number = 1 then some fun _ => decommittedPte .amd64 else none⟩

/-- A VAD inside that page table is cleared. -/
theorem cleanUp_secondTable : ∃ r, cleanUpTrace .amd64 2 3 0 0x200000 secondTable = some r ∧
      r.2 = [0x200, 0x201] ∧ CleansUp .amd64 secondTable 0x200000 2 r := by
  have ha : ∀ q, 0x200000 / pageSize ≤ q → q < 0x200000 / pageSize + 2 →
      mmIsPresentPte (secondTable.view .amd64 q) = false := by
    intro q hlo hh
    obtain rfl | rfl : q = 0x200 ∨ q = 0x201 := by
      simp only [pageSize] at hlo hh
      omega
    · rfl
    · rfl
  obtain ⟨r, hr, hc⟩ := (cleanUp_iff (by decide) (by decide) ha).2 fun q hlo hh hb hla => by
    obtain rfl | rfl : q = 0x200 ∨ q = 0x201 := by
      simp only [pageSize] at hlo hh
      omega
    · exact absurd hla (by decide)
    · exact absurd hla (by decide)
  have htr : (cleanUpTrace .amd64 2 3 0 0x200000 secondTable).map Prod.snd = some [0x200, 0x201] := by
    decide +kernel
  rw [hr] at htr
  exact ⟨r, hr, some.inj htr, hc⟩

/-- A VAD that begins a page before is not: the loop ends at the first page of the page table. -/
theorem cleanUp_leaves_second_page : ¬ ∃ r, cleanUpTrace .amd64 2 3 0 0x1FF000 secondTable = some r ∧
      CleansUp .amd64 secondTable 0x1FF000 2 r := by
  rintro ⟨r, hr, hc⟩
  have htr : (cleanUpTrace .amd64 2 3 0 0x1FF000 secondTable).map
      (fun r => r.1.entry .amd64 0x200) = some (some (decommittedPte .amd64)) := by
    decide +kernel
  rw [hr] at htr
  have he : r.1.entry .amd64 0x200 = some (decommittedPte .amd64) := some.inj htr
  exact decommittedPte_ne_zero .amd64 (hc.cleared 0x200 (by decide) (by decide) _ he)

end PageTables

end Boron.Mm
