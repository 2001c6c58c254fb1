import Mathlib.Tactic.Ring
import Boron.Mm.Commit

/-! # The three loops agree

Each loop walks the range page by page and leaps over the page tables that do not exist. Its effect,
or its answer, is that of a loop over all pages of the range in which a page without a page table has
a zero entry (`PageTables.view`). With this the commit, the decommit and the fault read the same state
of a page, wherever the boundaries of the page tables fall. -/

namespace Boron.Mm

open Option

variable {p : Port}

/-! ## Addresses of pages -/

namespace Port

variable {b : Nat}

theorem add_eq {a : Nat} (h : a + b < p.addresses) : p.add a b = a + b := Nat.mod_eq_of_lt h

theorem sub_eq {a : Nat} (hb : b ≤ a) (ha : a < p.addresses) : p.sub a b = a - b := by
  have : a + (p.addresses - b) = a - b + p.addresses := by omega
  rw [sub, this, Nat.add_mod_right, Nat.mod_eq_of_lt (by omega)]

theorem mul_eq {a : Nat} (h : a * b < p.addresses) : p.mul a b = a * b := Nat.mod_eq_of_lt h

theorem userSpaceEnd_add_tableSpan (p : Port) : p.userSpaceEnd + p.tableSpan < p.addresses := by
  cases p <;> decide

theorem pageSize_le_tableSpan (p : Port) : pageSize ≤ p.tableSpan := by
  cases p <;> decide

variable {q : Nat}

theorem page_of_address (q : Nat) : q * pageSize / pageSize = q :=
  Nat.mul_div_cancel q (by decide)

theorem add_pageSize (h : q * pageSize ≤ p.userSpaceEnd) :
    p.add (q * pageSize) pageSize = (q + 1) * pageSize := by
  have hsp := p.userSpaceEnd_add_tableSpan
  have hp := p.pageSize_le_tableSpan
  rw [add_eq (by omega), Nat.add_mul, Nat.one_mul]

/-- The first page past the page table of `q`. -/
def nextTable (p : Port) (q : Nat) : Nat := (q / p.ptesPerPage + 1) * p.ptesPerPage

theorem lt_nextTable (p : Port) (q : Nat) : q < p.nextTable q := by
  rw [nextTable, Nat.mul_comm]
  exact Nat.lt_mul_div_succ q (PageTables.ptesPerPage_pos p)

theorem nextTable_mod (p : Port) (q : Nat) : p.nextTable q % p.ptesPerPage = 0 :=
  Nat.mul_mod_left _ _

theorem div_of_lt_nextTable {r : Nat} (hq : q ≤ r) (hr : r < p.nextTable q) :
    r / p.ptesPerPage = q / p.ptesPerPage :=
  Nat.le_antisymm (Nat.lt_succ_iff.1 (Nat.div_lt_of_lt_mul (by rwa [nextTable, Nat.mul_comm] at hr)))
    (Nat.div_le_div_right hq)

theorem nextTable_le (h : q * pageSize < p.addresses) : p.nextTable q * pageSize ≤ p.addresses := by
  obtain ⟨k, hk⟩ : p.tableSpan ∣ p.addresses := by cases p <;> decide
  have hp : ∀ x, x * p.ptesPerPage * pageSize = p.tableSpan * x := by
    intro x
    rw [tableSpan]
    ring
  have hlt : q / p.ptesPerPage < k := by
    refine Nat.lt_of_mul_lt_mul_left (a := p.tableSpan) ?_
    rw [← hk, ← hp]
    exact (Nat.mul_le_mul_right _ (Nat.div_mul_le_self q _)).trans_lt h
  rw [nextTable, hp, hk]
  exact Nat.mul_le_mul_left _ hlt

/-- The skip at the end of the address space wraps. -/
theorem skipTable_mod (h : q * pageSize < p.addresses) :
    p.skipTable (q * pageSize) = p.nextTable q * pageSize % p.addresses := by
  have hpos : 0 < p.tableSpan := by cases p <;> decide
  have hsu : q * pageSize + p.tableSpan = pageSize * (q + p.ptesPerPage) := by
    rw [tableSpan, Nat.mul_comm q, Nat.mul_add]
  have hmd : q * pageSize + p.tableSpan - (q * pageSize + p.tableSpan) % p.tableSpan =
      p.nextTable q * pageSize := by
    rw [hsu, tableSpan, Nat.mul_mod_mul_left, ← Nat.mul_sub, nextTable, Nat.add_mod_right,
      Nat.mul_comm pageSize]
    congr 1
    have := Nat.div_add_mod q p.ptesPerPage
    rw [Nat.add_mul, Nat.one_mul, Nat.mul_comm (q / p.ptesPerPage)]
    omega
  have hle := nextTable_le h
  simp only [skipTable, add]
  rcases Nat.lt_or_ge (q * pageSize + p.tableSpan) p.addresses with hlt | hge
  · rw [Nat.mod_eq_of_lt hlt, hmd, Nat.mod_eq_of_lt (by omega)]
  · -- the sum wraps to an address below the span of one table
    have hls : p.nextTable q * pageSize = p.addresses := by
      have hrs := Nat.mod_lt (q * pageSize + p.tableSpan) hpos
      obtain ⟨k, hk⟩ : p.tableSpan ∣ p.addresses := by cases p <;> decide
      have hdv : p.nextTable q * pageSize = p.tableSpan * (q / p.ptesPerPage + 1) := by
        rw [nextTable, tableSpan]
        ring
      rw [hdv, hk] at hle
      rw [hdv, hk]
      congr 1
      refine Nat.le_antisymm (Nat.le_of_mul_le_mul_left hle hpos) ?_
      have hk' : p.tableSpan * k < p.tableSpan * (q / p.ptesPerPage + 1) + p.tableSpan := by
        rw [← hk, ← hdv]
        omega
      have hlt := Nat.lt_of_mul_lt_mul_left (a := p.tableSpan) (hk'.trans_eq (Nat.mul_succ _ _).symm)
      omega
    have hp : p.tableSpan < p.addresses := by cases p <;> decide
    have hw : (q * pageSize + p.tableSpan) % p.addresses =
        q * pageSize + p.tableSpan - p.addresses := by
      rw [Nat.mod_eq_sub_mod hge, Nat.mod_eq_of_lt (by omega)]
    have hsm : q * pageSize + p.tableSpan - p.addresses < p.tableSpan := by omega
    rw [hw, Nat.mod_eq_of_lt hsm, Nat.sub_self, hls, Nat.mod_self]

theorem skipTable_eq (h : q * pageSize ≤ p.userSpaceEnd) :
    p.skipTable (q * pageSize) = p.nextTable q * pageSize := by
  have hp := p.userSpaceEnd_add_tableSpan
  have hle : p.nextTable q * pageSize ≤ q * pageSize + p.tableSpan := by
    rw [tableSpan, Nat.mul_comm pageSize, ← Nat.add_mul, nextTable, Nat.add_mul, Nat.one_mul]
    exact Nat.mul_le_mul_right _ (Nat.add_le_add_right (Nat.div_mul_le_self q _) _)
  rw [skipTable_mod (by omega), Nat.mod_eq_of_lt (by omega)]

theorem skipped_pages_of_lt (h : q * pageSize < p.addresses) :
    p.sub (p.skipTable (q * pageSize)) (q * pageSize) / pageSize = p.nextTable q - q := by
  have hlt : q * pageSize < p.nextTable q * pageSize :=
    Nat.mul_lt_mul_of_pos_right (p.lt_nextTable q) (by decide)
  rw [skipTable_mod h]
  rcases Nat.eq_or_lt_of_le (nextTable_le h) with hls | hle
  · rw [hls, Nat.mod_self, sub, Nat.zero_add, ← hls, ← Nat.sub_mul]
    have hpos : 0 < q ∨ q = 0 := by omega
    rcases hpos with hpos | rfl
    · have hnext := p.lt_nextTable q
      rw [Nat.mod_eq_of_lt, page_of_address]
      exact Nat.mul_lt_mul_of_pos_right (by omega) (by decide)
    · exfalso
      have hp : p.nextTable 0 * pageSize < p.addresses := by
        cases p <;> decide
      omega
  · rw [Nat.mod_eq_of_lt hle, sub_eq hlt.le hle, ← Nat.sub_mul, page_of_address]

theorem skipped_pages (h : q * pageSize ≤ p.userSpaceEnd) :
    p.sub (p.skipTable (q * pageSize)) (q * pageSize) / pageSize = p.nextTable q - q := by
  have hp := p.userSpaceEnd_add_tableSpan
  exact skipped_pages_of_lt (by omega)

end Port

/-! ## Entering page tables -/

namespace PageTables

variable {m : PageTables} {room : Nat → Bool} {a i n : Nat}

/-- Where a loop that started at page `a` may stand after `i` pages: a page table it is inside of
exists. -/
def Entered (p : Port) (m : PageTables) (a i : Nat) : Prop :=
  i = 0 ∨ (a + i) % p.ptesPerPage = 0 ∨ m.HasTable p (a + i)

theorem Entered.start : Entered p m a 0 := .inl rfl

theorem hasTable_congr {q r : Nat} (h : q / p.ptesPerPage = r / p.ptesPerPage) :
    m.HasTable p q ↔ m.HasTable p r := by
  rw [HasTable, HasTable, h]

theorem Entered.next (h : m.HasTable p (a + i)) : Entered p m a (i + 1) := by
  by_cases hmd : (a + (i + 1)) % p.ptesPerPage = 0
  · exact .inr (.inl hmd)
  · refine .inr (.inr ((hasTable_congr ?_).2 h))
    rw [← Nat.add_assoc] at hmd ⊢
    exact Nat.succ_div_of_mod_ne_zero hmd

theorem Entered.skip : Entered p m a (i + (p.nextTable (a + i) - (a + i))) := by
  have hlt := p.lt_nextTable (a + i)
  refine .inr (.inl ?_)
  rw [show a + (i + (p.nextTable (a + i) - (a + i))) = p.nextTable (a + i) by omega]
  exact p.nextTable_mod (a + i)

variable {generate : Bool}

theorem enterTable_of_hasTable {q : Nat} (h : m.HasTable p q) :
    m.enterTable p room generate i (q * pageSize) = (m, true) := by
  rw [enterTable]
  split
  · exact check_of_hasTable (by rwa [Port.page_of_address])
  · rfl

theorem enterTable_of_entersTable {q : Nat} (h : i = 0 ∨ q % p.ptesPerPage = 0)
    (hno : ¬ m.HasTable p q) (hrm : (generate && room (q / p.ptesPerPage)) = false) :
    m.enterTable p room generate i (q * pageSize) = (m, false) := by
  rw [enterTable, Port.entersTable, Port.page_of_address, if_pos (by simpa using h)]
  exact check_of_not_hasTable (by rwa [Port.page_of_address]) (by rwa [Port.page_of_address])

theorem Entered.enters (h : Entered p m a i) (hno : ¬ m.HasTable p (a + i)) :
    i = 0 ∨ (a + i) % p.ptesPerPage = 0 := by
  rcases h with h | h | h
  · exact .inl h
  · exact .inr h
  · exact absurd h hno

theorem Entered.entersTable (h : Entered p m a i) (hno : ¬ m.HasTable p (a + i)) :
    p.entersTable i ((a + i) * pageSize) = true := by
  rw [Port.entersTable, Port.page_of_address]
  simpa using h.enters hno

theorem enterTable_of_not_hasTable (h : Entered p m a i) (hno : ¬ m.HasTable p (a + i))
    (hrm : (generate && room ((a + i) / p.ptesPerPage)) = false) :
    m.enterTable p room generate i ((a + i) * pageSize) = (m, false) :=
  enterTable_of_entersTable (h.enters hno) hno hrm

/-- A page has a page table, or gets one if it is asked for. -/
def Gets (p : Port) (m : PageTables) (room : Nat → Bool) (q : Nat) : Prop :=
  m.HasTable p q ∨ room (q / p.ptesPerPage) = true

instance (p : Port) (m : PageTables) (room : Nat → Bool) (q : Nat) : Decidable (m.Gets p room q) :=
  inferInstanceAs (Decidable (_ ∨ _))

/-- A table that is made takes no other page's chances away. -/
theorem gets_congr {m' : PageTables} {q num : Nat} (hrm : room num = true)
    (h : m'.HasTable p q ↔ m.HasTable p q ∨ q / p.ptesPerPage = num) :
    m'.Gets p room q ↔ m.Gets p room q := by
  rw [Gets, Gets, h]
  constructor
  · rintro ((hb | rfl) | hq)
    · exact .inl hb
    · exact .inr hrm
    · exact .inr hq
  · exact fun hq => hq.imp_left .inl

theorem enterTable_generate (hgt : m.Gets p room (a + i)) (h : Entered p m a i) :
    ∃ m', m.enterTable p room true i ((a + i) * pageSize) = (m', true) ∧
      m'.HasTable p (a + i) ∧ (∀ q, m.HasTable p q → m'.HasTable p q) ∧
      (∀ q, m'.Gets p room q ↔ m.Gets p room q) ∧ ∀ q, m'.view p q = m.view p q := by
  by_cases hb : m.HasTable p (a + i)
  · exact ⟨m, enterTable_of_hasTable hb, hb, fun _ hq => hq, fun _ => Iff.rfl, fun _ => rfl⟩
  · have hrm := hgt.resolve_left hb
    obtain ⟨m', hm', hmd, hw⟩ := check_generate (m := m) (p := p) ((a + i) * pageSize)
      (by rwa [Port.page_of_address])
    rw [Port.page_of_address] at hmd
    refine ⟨m', ?_, (hmd _).2 (.inr rfl), fun q hq => (hmd q).2 (.inl hq),
      fun q => gets_congr hrm (hmd q), hw⟩
    rw [enterTable, h.entersTable hb, if_pos rfl, hm']

/-! ## What the loops do -/

/-- A page without a page table may be committed unless its VAD is. -/
theorem mayCommit_zero (c : Bool) : mayCommit p c mmBuildZeroPte = !c := by
  simp [mayCommit]

/-- **The first loop of the commit** tests every page of the range. -/
theorem checkRange_spec {c : Bool} (he : (a + n) * pageSize ≤ p.userSpaceEnd) (fuel : Nat)
    (hfl : n - i < fuel) (hin : Entered p m a i) :
    ∃ b, checkRange p m c n fuel i ((a + i) * pageSize) = some b ∧
      (b = true ↔ ∀ q, a + i ≤ q → q < a + n → mayCommit p c (m.view p q) = true) := by
  induction fuel generalizing i with
  | zero => exact absurd hfl (Nat.not_lt_zero _)
  | succ fuel ih =>
    rw [checkRange]
    by_cases hi : i < n
    · have hva : (a + i) * pageSize ≤ p.userSpaceEnd :=
        (Nat.mul_le_mul_right _ (by omega)).trans he
      rw [if_pos hi]
      by_cases htb : m.HasTable p (a + i)
      · rw [enterTable_of_hasTable htb, if_pos rfl, Port.page_of_address,
          entry_of_hasTable htb, bind_some, Port.add_pageSize hva]
        split
        · next hy =>
            obtain ⟨b, hb, hp⟩ := ih (by omega) (Entered.next htb)
            refine ⟨b, hb, hp.trans ⟨fun h q hlo hh => ?_, fun h q hlo => h q (by omega)⟩⟩
            rcases Nat.eq_or_lt_of_le hlo with hq | hq
            · exact hq ▸ hy
            · exact h q (by omega) hh
        · next hy =>
            exact ⟨false, rfl, nofun, fun h => absurd (h (a + i) le_rfl (by omega)) hy⟩
      · -- no page table: all its pages have the commitment of the VAD
        rw [enterTable_of_not_hasTable hin htb rfl, if_neg Bool.false_ne_true,
          Port.skipped_pages hva, Port.skipTable_eq hva]
        have hz : ∀ q, a + i ≤ q → q < p.nextTable (a + i) → m.view p q = mmBuildZeroPte := by
          intro q hlo hh
          have hdv := Port.div_of_lt_nextTable hlo hh
          exact view_of_not_hasTable fun hq => htb ((hasTable_congr hdv).1 hq)
        have hlt := p.lt_nextTable (a + i)
        cases c with
        | true =>
          refine ⟨false, rfl, nofun, fun h => ?_⟩
          have hq := h (a + i) le_rfl (by omega)
          rw [hz _ le_rfl hlt, mayCommit_zero] at hq
          exact absurd hq (by decide)
        | false =>
          have hnext : a + (i + (p.nextTable (a + i) - (a + i))) = p.nextTable (a + i) := by
            omega
          obtain ⟨b, hb, hp⟩ := ih (i := i + (p.nextTable (a + i) - (a + i))) (by omega) Entered.skip
          rw [hnext] at hb hp
          refine ⟨b, hb, hp.trans ⟨fun h q hlo hh => ?_, fun h q hlo => h q (by omega)⟩⟩
          rcases Nat.lt_or_ge q (p.nextTable (a + i)) with hq | hq
          · rw [hz q hlo hq, mayCommit_zero]
            rfl
          · exact h q hq hh
    · rw [if_neg hi]
      exact ⟨true, rfl, fun _ q hlo hh => absurd hh (by omega), fun _ => rfl⟩

/-- Of `n` pages from `a`, `stop` is the first that gets no page table, or the end. -/
structure StopsAt (p : Port) (m : PageTables) (room : Nat → Bool) (a n stop : Nat) : Prop where
  lo : a ≤ stop
  hi : stop ≤ a + n
  gets : ∀ q, a ≤ q → q < stop → m.Gets p room q
  stops : stop < a + n → ¬ m.Gets p room stop

theorem exists_stopsAt (p : Port) (m : PageTables) (room : Nat → Bool) (a n : Nat) :
    ∃ stop, m.StopsAt p room a n stop := by
  induction n with
  | zero =>
    exact ⟨a, le_rfl, le_rfl, fun q hlo hlt => absurd hlo (by omega), fun h => absurd h (by omega)⟩
  | succ n ih =>
    obtain ⟨stop, h⟩ := ih
    rcases Nat.eq_or_lt_of_le h.hi with rfl | hlt
    · by_cases hgt : m.Gets p room (a + n)
      · refine ⟨a + (n + 1), by omega, le_rfl, fun q hlo hq => ?_, fun h => absurd h (by omega)⟩
        rcases Nat.lt_succ_iff_lt_or_eq.1 hq with hq | rfl
        · exact h.gets q hlo hq
        · exact hgt
      · exact ⟨a + n, h.lo, by omega, h.gets, fun _ => hgt⟩
    · exact ⟨stop, h.lo, by omega, h.gets, fun _ => h.stops hlt⟩

/-- **The second loop of the commit** marks the pages of the range up to the first that gets no page
table. -/
theorem commitPtes_spec {stop : Nat} (left : Nat)
    (he : (a + i + left) * pageSize ≤ p.userSpaceEnd) (hin : Entered p m a i)
    (h : m.StopsAt p room (a + i) left stop) :
    ∃ m', commitPtes p room left i ((a + i) * pageSize) m = some (m', decide (stop = a + i + left)) ∧
      ∀ q, m'.view p q = if a + i ≤ q ∧ q < stop then committedPte p else m.view p q := by
  induction left generalizing i m with
  | zero =>
    obtain rfl : stop = a + i := Nat.le_antisymm h.hi h.lo
    exact ⟨m, by rw [commitPtes, decide_eq_true (by omega)], fun q => by rw [if_neg (by omega)]⟩
  | succ left ih =>
    have hva : (a + i) * pageSize ≤ p.userSpaceEnd :=
      (Nat.mul_le_mul_right _ (by omega)).trans he
    rcases Nat.eq_or_lt_of_le h.lo with rfl | hlt
    · have hno := h.stops (by omega)
      have hrm : (true && room ((a + i) / p.ptesPerPage)) = false :=
        Bool.eq_false_iff.2 fun h => hno (.inr h)
      refine ⟨m, ?_, fun q => by rw [if_neg (by omega)]⟩
      rw [commitPtes, enterTable_of_not_hasTable hin (fun h => hno (.inl h)) hrm,
        decide_eq_false (by omega)]
      rfl
    · obtain ⟨m₁, hm₁, hb, -, hgt₁, hw₁⟩ := enterTable_generate (h.gets _ le_rfl hlt) hin
      obtain ⟨m₂, hm₂, hmn, hw₂⟩ := write_spec hb (committedPte p)
      have hls : a + (i + 1) + left = a + i + (left + 1) := by omega
      have hh := h.hi
      have hsm : ∀ q, m₂.Gets p room q ↔ m.Gets p room q := fun q =>
        (or_congr (hmn q) Iff.rfl).trans (hgt₁ q)
      obtain ⟨m', hm', hw⟩ := ih (m := m₂) (i := i + 1) (hls ▸ he)
        (Entered.next ((hmn _).2 hb)) ⟨by omega, by omega,
          fun q hq hq' => (hsm q).2 (h.gets q (by omega) hq'),
          fun hq => mt (hsm stop).1 (h.stops (by omega))⟩
      rw [hls] at hm'
      refine ⟨m', ?_, fun q => ?_⟩
      · simp only [commitPtes, hm₁, if_true, Port.page_of_address, hm₂, bind_some,
          Port.add_pageSize hva]
        exact hm'
      · rw [hw, hw₂, hw₁]
        by_cases hq : q = a + i
        · rw [if_neg (by omega), if_pos hq, if_pos (by omega)]
        · rw [if_neg hq]
          exact if_congr (by omega) rfl rfl

/-- A page that the loop of the decommit marks. -/
def Found (p : Port) (m : PageTables) (room : Nat → Bool) (generate : Bool) (q : Nat) : Prop :=
  m.HasTable p q ∨ (generate && room (q / p.ptesPerPage)) = true

instance (p : Port) (m : PageTables) (room : Nat → Bool) (generate : Bool) (q : Nat) :
    Decidable (m.Found p room generate q) :=
  inferInstanceAs (Decidable (_ ∨ _))

/-- **The loop of the decommit** marks the pages of the range that have a page table, or get one if
it makes the missing ones. -/
theorem decommitPtes_spec (room : Nat → Bool) (generate : Bool) (freed : List Nat)
    (he : (a + n) * pageSize ≤ p.userSpaceEnd) (fuel : Nat) (hfl : n - i < fuel)
    (hin : Entered p m a i) :
    ∃ m' freed', decommitPtes p room generate true n fuel i ((a + i) * pageSize) m freed =
        some (m', freed') ∧
      ∀ q, m'.view p q =
        if (a + i ≤ q ∧ q < a + n) ∧ m.Found p room generate q then decommittedPte p
        else m.view p q := by
  induction fuel generalizing i m freed with
  | zero => exact absurd hfl (Nat.not_lt_zero _)
  | succ fuel ih =>
    by_cases hi : i < n
    · have hva : (a + i) * pageSize ≤ p.userSpaceEnd :=
        (Nat.mul_le_mul_right _ (by omega)).trans he
      -- the round on a page that has a table by now
      have hrn : ∀ m₁ : PageTables, m.enterTable p room generate i ((a + i) * pageSize) = (m₁, true) →
          m₁.HasTable p (a + i) →
          (∀ q, m₁.Found p room generate q ↔ m.Found p room generate q) →
          (∀ q, m₁.view p q = m.view p q) →
          ∃ m' freed', decommitPtes p room generate true n (fuel + 1) i ((a + i) * pageSize) m
              freed = some (m', freed') ∧
            ∀ q, m'.view p q =
              if (a + i ≤ q ∧ q < a + n) ∧ m.Found p room generate q then decommittedPte p
              else m.view p q := by
        intro m₁ hm₁ hb hfn hw₁
        obtain ⟨m₂, hm₂, hmn, hw₂⟩ := write_spec hb (decommittedPte p)
        obtain ⟨m', freed', hm', hw⟩ := ih (m := m₂) (i := i + 1)
          (freed ++ freedFrames (m₁.view p (a + i))) (by omega)
          (Entered.next ((hmn _).2 hb))
        have hfn₂ : ∀ q, m₂.Found p room generate q ↔ m.Found p room generate q := fun q =>
          (or_congr (hmn q) Iff.rfl).trans (hfn q)
        refine ⟨m', freed', ?_, fun q => ?_⟩
        · simp only [decommitPtes, if_pos hi, hm₁, if_true, Port.page_of_address,
            entry_of_hasTable hb, hm₂, bind_some, Port.add_pageSize hva]
          exact hm'
        · rw [hw, hw₂, hw₁]
          simp only [hfn₂]
          by_cases hq : q = a + i
          · have hq' : m.Found p room generate q := (hfn q).1 (.inl (hq ▸ hb))
            rw [if_neg (by omega), if_pos hq, if_pos ⟨by omega, hq'⟩]
          · rw [if_neg hq]
            exact if_congr (and_congr (by omega) Iff.rfl) rfl rfl
      by_cases hb : m.HasTable p (a + i)
      · exact hrn m (enterTable_of_hasTable hb) hb (fun _ => Iff.rfl) fun _ => rfl
      cases hrm : generate && room ((a + i) / p.ptesPerPage) with
      | true =>
        obtain ⟨rfl, hrm⟩ := Bool.and_eq_true_iff.1 hrm
        obtain ⟨m₁, hm₁, hb₁, -, hgt, hw₁⟩ := enterTable_generate (.inr hrm) hin
        exact hrn m₁ hm₁ hb₁ hgt hw₁
      | false =>
        have hlt := p.lt_nextTable (a + i)
        have hnext : a + (i + (p.nextTable (a + i) - (a + i))) = p.nextTable (a + i) := by
          omega
        obtain ⟨m', freed', hm', hw⟩ := ih (m := m)
          (i := i + (p.nextTable (a + i) - (a + i))) freed (by omega) Entered.skip
        refine ⟨m', freed', ?_, fun q => ?_⟩
        · simp only [decommitPtes, if_pos hi, enterTable_of_not_hasTable hin hb hrm,
            Bool.false_eq_true, if_false]
          rw [Port.skipped_pages hva, Port.skipTable_eq hva]
          rwa [hnext] at hm'
        · rw [hw, hnext]
          -- the pages that were leapt over are not found
          refine if_congr (and_congr_left fun hq => ?_) rfl rfl
          refine ⟨fun h => ⟨by omega, h.2⟩, fun h => ⟨?_, h.2⟩⟩
          refine Nat.le_of_not_lt fun hls => ?_
          have hsm := Port.div_of_lt_nextTable h.1 hls
          rcases hq with hq | hq
          · exact hb ((hasTable_congr hsm).1 hq)
          · rw [hsm, hrm] at hq
            cases hq
    · refine ⟨m, freed, ?_, fun q => ?_⟩
      · simp only [decommitPtes, if_neg hi]
      · rw [if_neg (by omega)]

end PageTables

end Boron.Mm
