import Boron.Mm.Heap

/-! # Page table entries and page tables (`mm/amd64/pte.c`, `mm/i386/pte.c`, `mm/arm/pte.c`)

The memory manager goes through a small interface to the entries of a page table, which every port
implements. An entry that maps a page is kept with its frame and the bits that matter here, an absent
one as the word the processor sees.

A process' page tables are a map from the number of a page table to its entries; a table that does
not exist is `none`. -/

namespace Boron.Mm

open Function Option

/-! ## Ports -/

inductive Port
  | amd64
  | i386
  | arm
  deriving DecidableEq, Repr

namespace Port

/-- The number of values of an `uintptr_t`. -/
def addresses : Port → Nat
  | .amd64 => 0x10000000000000000
  | .i386 => 0x100000000
  | .arm => 0x100000000

/-- `PAGE_SIZE / sizeof(MMPTE)`. -/
def ptesPerPage : Port → Nat
  | .amd64 => 512
  | .i386 => 1024
  | .arm => 1024

/-- `MM_USER_SPACE_END`. -/
def userSpaceEnd : Port → Nat
  | .amd64 => 0x7FFFFFFFFFFF
  | .i386 => 0x7FFFFFFF
  | .arm => 0x7FFFFFFF

/-- `MM_*_DPTE_ISPOOLHDR`. -/
def dpteIsPoolHdr : Port → BitVec 64
  | .amd64 => 1 <<< 58
  | .i386 => 1 <<< 11
  | .arm => 1 <<< 2

/-- `MM_*_DPTE_DECOMMITTED`. -/
def dpteDecommitted : Port → BitVec 64
  | .amd64 => 1 <<< 3
  | .i386 => 1 <<< 3
  | .arm => 1 <<< 7

/-- `MM_*_DPTE_COMMITTED`. -/
def dpteCommitted : Port → BitVec 64
  | .amd64 => 1 <<< 8
  | .i386 => 1 <<< 8
  | .arm => 1 <<< 3

/-- Sums, differences and products of addresses wrap. -/
def add (p : Port) (a b : Nat) : Nat := (a + b) % p.addresses

def sub (p : Port) (a b : Nat) : Nat := (a + (p.addresses - b)) % p.addresses

def mul (p : Port) (a b : Nat) : Nat := a * b % p.addresses

/-- The bytes one page of PTEs maps, `PAGE_SIZE * PAGE_SIZE / sizeof(MMPTE)`. -/
def tableSpan (p : Port) : Nat := pageSize * p.ptesPerPage

end Port

/-! ## Entries -/

inductive Pte
  | present (pfn : Nat) (writable isFromPmm : Bool)
  | absent (hardware : BitVec 64)
  deriving DecidableEq, Repr

def mmBuildZeroPte : Pte := .absent 0

/-- `MmBuildAbsentPte`, by `MM_PAGE_DECOMMITTED` and `MM_PAGE_COMMITTED`. -/
def mmBuildAbsentPte (p : Port) (decommitted committed : Bool) : Pte :=
  .absent ((if decommitted then p.dpteDecommitted else 0) |||
    (if committed then p.dpteCommitted else 0))

def mmIsPresentPte : Pte → Bool
  | .present .. => true
  | .absent _ => false

def mmIsCommittedPte (p : Port) : Pte → Bool
  | .present .. => false
  | .absent hardware =>
    match p with
    | .amd64 => hardware &&& p.dpteIsPoolHdr = 0 && hardware &&& p.dpteDecommitted ≠ 0
    | .i386 => hardware &&& p.dpteIsPoolHdr = 0 && hardware &&& p.dpteDecommitted ≠ 0
    | .arm => hardware &&& p.dpteCommitted ≠ 0

def mmIsDecommittedPte (p : Port) : Pte → Bool
  | .present .. => false
  | .absent hardware =>
    match p with
    | .amd64 => hardware &&& p.dpteIsPoolHdr = 0 && hardware &&& p.dpteCommitted ≠ 0
    | .i386 => hardware &&& p.dpteIsPoolHdr = 0 && hardware &&& p.dpteCommitted ≠ 0
    | .arm => hardware &&& p.dpteDecommitted ≠ 0

/-- The two markers. -/
def committedPte (p : Port) : Pte := mmBuildAbsentPte p false true

def decommittedPte (p : Port) : Pte := mmBuildAbsentPte p true false

section

variable (p : Port)

theorem committedPte_ne_zero : committedPte p ≠ mmBuildZeroPte := by
  cases p <;> decide

theorem decommittedPte_ne_zero : decommittedPte p ≠ mmBuildZeroPte := by
  cases p <;> decide

theorem isCommitted_committedPte : mmIsCommittedPte p (committedPte p) = decide (p = .arm) := by
  cases p <;> decide

theorem isCommitted_decommittedPte : mmIsCommittedPte p (decommittedPte p) = decide (p ≠ .arm) := by
  cases p <;> decide

theorem isDecommitted_decommittedPte : mmIsDecommittedPte p (decommittedPte p) = decide (p = .arm) := by
  cases p <;> decide

@[simp] theorem isCommitted_zero : mmIsCommittedPte p mmBuildZeroPte = false := by
  cases p <;> decide

@[simp] theorem isDecommitted_zero : mmIsDecommittedPte p mmBuildZeroPte = false := by
  cases p <;> decide

@[simp] theorem isPresent_zero : mmIsPresentPte mmBuildZeroPte = false := rfl

@[simp] theorem isPresent_decommittedPte : mmIsPresentPte (decommittedPte p) = false := rfl

end

/-! ## Page tables -/

/-- The page tables by their number, each with its entries by their index. -/
structure PageTables where
  table : Nat → Option (Nat → Pte)

namespace PageTables

/-- The entry of a page, if there is a page table for it. -/
def entry (p : Port) (m : PageTables) (page : Nat) : Option Pte :=
  (m.table (page / p.ptesPerPage)).map fun table => table (page % p.ptesPerPage)

/-- `*Pte = NewPte`; `none` if there is no such page table. -/
def write (p : Port) (m : PageTables) (page : Nat) (e : Pte) : Option PageTables :=
  (m.table (page / p.ptesPerPage)).map fun table =>
    ⟨update m.table (page / p.ptesPerPage)
      (some (update table (page % p.ptesPerPage) e))⟩

/-- `MmCheckPteLocation`: is there a page table for the address? If not and `generate` is set, one
is made, if there is `room` for it. -/
def mmCheckPteLocation (p : Port) (room : Nat → Bool) (m : PageTables) (va : Nat)
    (generate : Bool) : PageTables × Bool :=
  let number := va / pageSize / p.ptesPerPage
  if (m.table number).isSome then (m, true)
  else if generate && room number then
    (⟨update m.table number (some fun _ => mmBuildZeroPte)⟩, true)
  else (m, false)

/-- What a page's entry says: no page table is as good as a zero entry. -/
def view (p : Port) (m : PageTables) (page : Nat) : Pte := (m.entry p page).getD mmBuildZeroPte

/-- There is a page table for the page. -/
def HasTable (p : Port) (m : PageTables) (page : Nat) : Prop :=
  (m.table (page / p.ptesPerPage)).isSome = true

instance (p : Port) (m : PageTables) (page : Nat) : Decidable (m.HasTable p page) :=
  inferInstanceAs (Decidable (_ = true))

variable {p : Port} {m m' : PageTables} {page : Nat}

theorem view_of_not_hasTable (h : ¬ m.HasTable p page) : m.view p page = mmBuildZeroPte := by
  rw [HasTable, Bool.not_eq_true, isSome_eq_false_iff, isNone_iff_eq_none] at h
  rw [view, entry, h]
  rfl

theorem entry_of_hasTable (h : m.HasTable p page) : m.entry p page = some (m.view p page) := by
  obtain ⟨table, hb⟩ := isSome_iff_exists.1 h
  rw [view, entry, hb]
  rfl

theorem ptesPerPage_pos (p : Port) : 0 < p.ptesPerPage := by
  cases p <;> decide

/-- A page is told by its table and its place in it. -/
theorem eq_of_div_mod {a b : Nat} (hdv : a / p.ptesPerPage = b / p.ptesPerPage)
    (hmd : a % p.ptesPerPage = b % p.ptesPerPage) : a = b := by
  rw [← Nat.div_add_mod a p.ptesPerPage, hdv, hmd, Nat.div_add_mod]

/-- Writing an entry changes that page, and no page table appears or goes. -/
theorem write_spec (h : m.HasTable p page) (e : Pte) :
    ∃ m', m.write p page e = some m' ∧ (∀ q, m'.HasTable p q ↔ m.HasTable p q) ∧
      ∀ q, m'.view p q = if q = page then e else m.view p q := by
  obtain ⟨table, hb⟩ := isSome_iff_exists.1 h
  refine ⟨⟨update m.table (page / p.ptesPerPage)
    (some (update table (page % p.ptesPerPage) e))⟩, by rw [write, hb]; rfl,
    fun q => ?_, fun q => ?_⟩
  · simp only [HasTable]
    by_cases hq : q / p.ptesPerPage = page / p.ptesPerPage
    · rw [hq, update_self, hb]
      exact Iff.rfl
    · rw [update_of_ne hq]
  · simp only [view, entry]
    by_cases hq : q / p.ptesPerPage = page / p.ptesPerPage
    · rw [hq, update_self, hb]
      by_cases hmd : q % p.ptesPerPage = page % p.ptesPerPage
      · rw [if_pos (eq_of_div_mod hq hmd), hmd]
        simp
      · rw [if_neg fun hp => hmd (by rw [hp])]
        simp [update_of_ne hmd]
    · rw [update_of_ne hq, if_neg fun hp => hq (by rw [hp])]

variable {room : Nat → Bool}

theorem check_of_hasTable {va : Nat} {gen : Bool} (h : m.HasTable p (va / pageSize)) :
    m.mmCheckPteLocation p room va gen = (m, true) := by
  rw [mmCheckPteLocation]
  exact if_pos h

theorem check_of_not_hasTable {va : Nat} {gen : Bool} (h : ¬ m.HasTable p (va / pageSize))
    (hrm : (gen && room (va / pageSize / p.ptesPerPage)) = false) :
    m.mmCheckPteLocation p room va gen = (m, false) := by
  rw [mmCheckPteLocation]
  refine (if_neg h).trans (if_neg ?_)
  rw [hrm]
  exact Bool.false_ne_true

/-- With room for it there is a table afterwards, and no page's entry says anything else. -/
theorem check_generate (va : Nat) (hrm : room (va / pageSize / p.ptesPerPage) = true) :
    ∃ m', m.mmCheckPteLocation p room va true = (m', true) ∧ (∀ q, m'.HasTable p q ↔
        m.HasTable p q ∨ q / p.ptesPerPage = va / pageSize / p.ptesPerPage) ∧
      ∀ q, m'.view p q = m.view p q := by
  by_cases h : m.HasTable p (va / pageSize)
  · refine ⟨m, check_of_hasTable h, fun q => ⟨.inl, ?_⟩, fun _ => rfl⟩
    rintro (hq | hq)
    · exact hq
    · rwa [HasTable, hq]
  · refine ⟨⟨update m.table (va / pageSize / p.ptesPerPage)
      (some fun _ => mmBuildZeroPte)⟩, ?_, fun q => ?_, fun q => ?_⟩
    · rw [mmCheckPteLocation]
      exact (if_neg h).trans (if_pos (by rw [hrm]; rfl))
    · simp only [HasTable]
      by_cases hp : q / p.ptesPerPage = va / pageSize / p.ptesPerPage
      · rw [hp, update_self]
        simp
      · rw [update_of_ne hp, or_iff_left hp]
    · by_cases hp : q / p.ptesPerPage = va / pageSize / p.ptesPerPage
      · have hq : ¬ m.HasTable p q := by rwa [HasTable, hp]
        rw [view_of_not_hasTable hq]
        simp only [view, entry, hp, update_self, map_some, getD_some]
      · simp only [view, entry, update_of_ne hp]

end PageTables

end Boron.Mm
