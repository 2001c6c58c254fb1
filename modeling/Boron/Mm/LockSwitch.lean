import Boron.Lib.Count
import Boron.Lib.Run
import Mathlib.Algebra.Order.BigOperators.Group.Finset
import Mathlib.Data.Fintype.EquivFin
import Mathlib.Data.Fintype.Lattice

/-! # Switching the kernel space lock (`mm/vmm.c`)

Until the scheduler runs, kernel space is locked with a spin lock. Then every processor calls
`MmSwitchKernelSpaceLock` once: they wait for each other, the bootstrap processor installs the routines
that use a mutex, and they wait for each other again. An action is one access of a processor to what
the processors share; a turn of a spin loop that goes on changes nothing.

In the second wait every processor counts for two, so half of the processors are enough for it
(`lockSwitch_barrier_iff`). -/

namespace Boron.Mm

open Function List Option

/-- What a kernel space lock function uses: `MmpKernelSpaceSpinLock` or `MmpKernelSpaceMutex`. -/
inductive SpaceLockKind
  | spin
  | mutex
  deriving DecidableEq, Repr

/-- Where a processor stands in `MmSwitchKernelSpaceLock`: in front of the access that it makes
next. -/
inductive SwitchStage
  | entering
  | gathering
  | initializeMutex
  | setLockShared
  | setLockExclusive
  | setUnlock
  | signaling
  | syncing
  | returned
  deriving DecidableEq, Repr

/-- The processors, `MmSyncLockSwitch`, `MmSyncLockSwitch2`, and the mutex and the function pointers of
the kernel space lock. -/
structure LockSwitch (P : Type) where
  stage : P → SwitchStage
  syncLockSwitch : Nat
  syncLockSwitch2 : Nat
  mutexInitialized : Bool
  lockSharedFunc : SpaceLockKind
  lockExclusiveFunc : SpaceLockKind
  unlockFunc : SpaceLockKind

namespace LockSwitch

variable {P : Type} [DecidableEq P]

omit [DecidableEq P] in
/-- Before any processor calls. -/
def start : LockSwitch P where
  stage := fun _ => .entering
  syncLockSwitch := 0
  syncLockSwitch2 := 0
  mutexInitialized := false
  lockSharedFunc := .spin
  lockExclusiveFunc := .spin
  unlockFunc := .spin

def goto (s : LockSwitch P) (p : P) (stage : SwitchStage) : LockSwitch P :=
  { s with stage := update s.stage p stage }

/-- The next access of processor `p`; `procCount` is `KeProcessorCount`. -/
def step (procCount : Nat) (bootstrap : P) (s : LockSwitch P) (p : P) : Option (LockSwitch P) :=
  match s.stage p with
  | .entering => some ({ s with syncLockSwitch := s.syncLockSwitch + 1 }.goto p .gathering)
  | .gathering =>
    if s.syncLockSwitch < procCount then some s
    else some (s.goto p (if p = bootstrap then .initializeMutex else .signaling))
  | .initializeMutex => some ({ s with mutexInitialized := true }.goto p .setLockShared)
  | .setLockShared => some ({ s with lockSharedFunc := .mutex }.goto p .setLockExclusive)
  | .setLockExclusive => some ({ s with lockExclusiveFunc := .mutex }.goto p .setUnlock)
  | .setUnlock => some ({ s with unlockFunc := .mutex }.goto p .signaling)
  | .signaling => some ({ s with syncLockSwitch2 := s.syncLockSwitch2 + 2 }.goto p .syncing)
  | .syncing => if s.syncLockSwitch2 < procCount then some s else some (s.goto p .returned)
  | .returned => none

/-- The functions that use the mutex are installed. -/
structure Installed (s : LockSwitch P) : Prop where
  mutexInitialized : s.mutexInitialized = true
  lockSharedFunc : s.lockSharedFunc = .mutex
  lockExclusiveFunc : s.lockExclusiveFunc = .mutex
  unlockFunc : s.unlockFunc = .mutex

/-- No processor has returned before the functions are installed. -/
def Barrier (s : LockSwitch P) : Prop := ∀ p, s.stage p = .returned → s.Installed

/-- How far a processor at a stage is from its return. -/
def left (stage : SwitchStage) : Nat := SwitchStage.returned.ctorIdx - stage.ctorIdx

/-- What it has added to `MmSyncLockSwitch`. -/
def entered : SwitchStage → Nat
  | .entering => 0
  | _ => 1

/-- What it has added to `MmSyncLockSwitch2`. -/
def signaled : SwitchStage → Nat
  | .syncing | .returned => 2
  | _ => 0

/-! ## The bootstrap processor -/

/-- What is installed when the bootstrap processor is at a stage. -/
def InstalledAt (s : LockSwitch P) : SwitchStage → Prop
  | .entering | .gathering | .initializeMutex => True
  | .setLockShared => s.mutexInitialized = true
  | .setLockExclusive => s.mutexInitialized = true ∧ s.lockSharedFunc = .mutex
  | .setUnlock =>
    s.mutexInitialized = true ∧ s.lockSharedFunc = .mutex ∧ s.lockExclusiveFunc = .mutex
  | .signaling | .syncing | .returned => s.Installed

section

variable {procCount : Nat} {bootstrap p : P} {s t : LockSwitch P} {stage : SwitchStage}

theorem stage_goto (s : LockSwitch P) (p : P) (stage : SwitchStage) :
    (s.goto p stage).stage p = stage := update_self ..

/-- A processor leaves the others where they are. -/
theorem stage_goto_of_ne {q : P} (hne : q ≠ p) (s : LockSwitch P) (stage : SwitchStage) :
    (s.goto p stage).stage q = s.stage q := update_of_ne hne ..

theorem installedAt_goto (q : P) (stage' : SwitchStage) :
    (s.goto q stage').InstalledAt stage ↔ s.InstalledAt stage := by
  cases stage with
  | signaling | syncing | returned => exact ⟨fun h => ⟨h.1, h.2, h.3, h.4⟩, fun h => ⟨h.1, h.2, h.3, h.4⟩⟩
  | _ => exact Iff.rfl

/-- An access that changes something, with what it adds to the counters and installs. -/
theorem step_cases (hst : step procCount bootstrap s p = some t) : t = s ∨ ∃ u stage,
    t = goto u p stage ∧ u.stage = s.stage ∧ left stage < left (s.stage p) ∧
      u.syncLockSwitch + entered (s.stage p) = s.syncLockSwitch + entered stage ∧
      u.syncLockSwitch2 + signaled (s.stage p) = s.syncLockSwitch2 + signaled stage ∧
      (∀ stage, s.InstalledAt stage → u.InstalledAt stage) ∧
      (p = bootstrap → s.InstalledAt (s.stage p) → u.InstalledAt stage) := by
  rw [step] at hst
  cases hsg : s.stage p with
  | gathering =>
    simp only [hsg] at hst
    split at hst
    · exact .inl (some.inj hst).symm
    · cases hst
      refine .inr ⟨s, _, rfl, rfl, ?_, ?_, ?_, fun _ => id, ?_⟩ <;> grind [InstalledAt, left, entered, signaled]
  | syncing =>
    simp only [hsg] at hst
    split at hst
    · exact .inl (some.inj hst).symm
    · cases hst
      exact .inr ⟨s, _, rfl, rfl, by decide, rfl, rfl, fun _ => id, fun _ => id⟩
  | returned =>
    simp only [hsg] at hst
    cases hst
  | _ =>
    simp only [hsg] at hst
    cases hst
    refine .inr ⟨_, _, rfl, rfl, by decide, rfl, rfl, fun stage h => ?_, fun _ h => ?_⟩
    · cases stage <;> grind [InstalledAt, Installed]
    · grind [InstalledAt, Installed]

theorem installedAt_step (h : s.InstalledAt (s.stage bootstrap))
    (hst : step procCount bootstrap s p = some t) : t.InstalledAt (t.stage bootstrap) := by
  obtain rfl | ⟨u, stage, rfl, hu, -, -, -, hm, hb⟩ := step_cases hst
  · exact h
  · rw [installedAt_goto]
    by_cases hp : bootstrap = p
    · subst hp
      rw [stage_goto]
      exact hb rfl h
    · rw [stage_goto_of_ne hp, hu]
      exact hm _ h

/-- With one processor there is nobody to wait for. -/
theorem barrier_of_subsingleton [Subsingleton P]
    (h : Reaches (step procCount bootstrap) (fun _ _ => True) start s) : s.Barrier := by
  have hin : s.InstalledAt (s.stage bootstrap) := by
    refine h.invariant (I := fun s => s.InstalledAt (s.stage bootstrap)) trivial ?_
    exact fun _ _ _ ht _ hst => installedAt_step ht hst
  intro p hrt
  obtain rfl : p = bootstrap := Subsingleton.elim p bootstrap
  rw [hrt] at hin
  exact hin

end

/-! ## Several processors -/

section

variable {procCount : Nat} {bootstrap : P} {s : LockSwitch P} {l : List P}

/-- Processors at one stage go on to another, one after the other. -/
theorem reaches_each {stage : SwitchStage} (stage' : SwitchStage) {n m : Nat} (hnd : l.Nodup)
    (hst : ∀ p ∈ l, s.stage p = stage) (hgo : ∀ t p, p ∈ l → t.stage p = stage →
      s.syncLockSwitch ≤ t.syncLockSwitch → Reaches (step procCount bootstrap) (fun _ _ => True) t
        ({ t with
          syncLockSwitch := t.syncLockSwitch + n
          syncLockSwitch2 := t.syncLockSwitch2 + m }.goto p stage')) :
    ∃ t, Reaches (step procCount bootstrap) (fun _ _ => True) s t ∧
      t.syncLockSwitch = s.syncLockSwitch + n * l.length ∧
      t.syncLockSwitch2 = s.syncLockSwitch2 + m * l.length ∧ t.unlockFunc = s.unlockFunc ∧
      (∀ p ∈ l, t.stage p = stage') ∧ ∀ p, p ∉ l → t.stage p = s.stage p := by
  induction l generalizing s with
  | nil => exact ⟨s, .refl, rfl, rfl, rfl, fun p hp => absurd hp not_mem_nil, fun _ _ => rfl⟩
  | cons p l ih =>
    obtain ⟨hp, hnd⟩ := nodup_cons.1 hnd
    obtain ⟨t, hc, hcount, hcount2, hu, hin, hot⟩ :=
      ih (s := { s with
        syncLockSwitch := s.syncLockSwitch + n
        syncLockSwitch2 := s.syncLockSwitch2 + m }.goto p stage') hnd (by
        intro q hq
        have hne : q ≠ p := fun heq => hp (heq ▸ hq)
        rw [stage_goto_of_ne hne]
        exact hst q (mem_cons_of_mem _ hq))
        fun t q hq hq' hle => hgo t q (mem_cons_of_mem _ hq) hq' ((Nat.le_add_right ..).trans hle)
    refine ⟨t, (hgo s p mem_cons_self (hst p mem_cons_self) le_rfl).trans hc, ?_, ?_, hu, ?_, ?_⟩
    · rw [hcount, length_cons, Nat.mul_succ]
      change s.syncLockSwitch + n + _ = _
      omega
    · rw [hcount2, length_cons, Nat.mul_succ]
      change s.syncLockSwitch2 + m + _ = _
      omega
    · intro q hq
      rcases mem_cons.1 hq with rfl | hq
      · rw [hot q hp, stage_goto]
      · exact hin q hq
    · intro q hq
      obtain ⟨hne, hq⟩ := not_or.1 (mt mem_cons.2 hq)
      rw [hot q hq, stage_goto_of_ne hne]

theorem reaches_gathering (procCount : Nat) (bootstrap : P) (hnd : l.Nodup)
    (he : ∀ p ∈ l, s.stage p = .entering) :
    ∃ t, Reaches (step procCount bootstrap) (fun _ _ => True) s t ∧
      t.syncLockSwitch = s.syncLockSwitch + l.length ∧ t.syncLockSwitch2 = s.syncLockSwitch2 ∧
      t.unlockFunc = s.unlockFunc ∧ ∀ p ∈ l, t.stage p = .gathering := by
  obtain ⟨t, hc, hcount, hcount2, hu, hst, -⟩ :=
    reaches_each (n := 1) (m := 0) .gathering hnd he fun t p _ hp _ =>
      .single (a := p) trivial (by rw [step, hp]; rfl)
  exact ⟨t, hc, by omega, by omega, hu, hst⟩

/-- Processors other than the bootstrap processor go on to the second wait. -/
theorem reaches_syncing (bootstrap : P) (hnd : l.Nodup) (hcount : procCount ≤ s.syncLockSwitch)
    (hgt : ∀ p ∈ l, s.stage p = .gathering ∧ p ≠ bootstrap) :
    ∃ t, Reaches (step procCount bootstrap) (fun _ _ => True) s t ∧
      t.syncLockSwitch2 = s.syncLockSwitch2 + 2 * l.length ∧ t.unlockFunc = s.unlockFunc ∧
        ∀ p ∈ l, t.stage p = .syncing := by
  obtain ⟨t, hc, -, hcount2, hu, hst, -⟩ :=
    reaches_each (n := 0) (m := 2) .syncing hnd (fun p hp => (hgt p hp).1) fun t p hp ht hle => by
      have hps : step procCount bootstrap t p = some (t.goto p .signaling) := by
        rw [step, ht]
        simp only [if_neg (not_lt.2 (hcount.trans hle)), if_neg (hgt p hp).2]
      refine .tail (a := p) (.single trivial hps) trivial ?_
      rw [step, stage_goto]
      simp [goto]
  exact ⟨t, hc, hcount2, hu, hst⟩

end

/-- **The barrier holds for one processor only**: of several, those that are not the bootstrap processor
pass the second wait without it. -/
theorem lockSwitch_barrier_iff [Fintype P] (bootstrap : P) :
    (∀ s, Reaches (step (Fintype.card P) bootstrap) (fun _ _ => True) start s → s.Barrier) ↔
      Fintype.card P = 1 := by
  constructor
  · intro h
    by_contra hc
    have hpos : 0 < Fintype.card P := Fintype.card_pos_iff.2 ⟨bootstrap⟩
    have hmn : 1 < Fintype.card P := by omega
    obtain ⟨p, hp⟩ := Fintype.exists_ne_of_one_lt_card hmn bootstrap
    obtain ⟨s, hs, hcount, hcount2, hu, hgt⟩ :=
      reaches_gathering (s := start) (Fintype.card P) bootstrap
        (Finset.nodup_toList Finset.univ) fun _ _ => rfl
    have ha : Fintype.card P ≤ s.syncLockSwitch := by
      rw [hcount, Finset.length_toList]
      exact Nat.le_add_left ..
    obtain ⟨t, ht, hy, hu', hsg⟩ :=
      reaches_syncing bootstrap (Finset.nodup_toList (Finset.univ.erase bootstrap)) ha <| by
        intro q hq
        refine ⟨hgt q (Finset.mem_toList.2 (Finset.mem_univ q)), ?_⟩
        exact Finset.ne_of_mem_erase (Finset.mem_toList.1 hq)
    -- each of the others has added two
    have hps : Fintype.card P ≤ t.syncLockSwitch2 := by
      rw [hy, Finset.length_toList, Finset.card_erase_of_mem (Finset.mem_univ _), Finset.card_univ]
      omega
    have hst : t.stage p = .syncing :=
      hsg p (Finset.mem_toList.2 (Finset.mem_erase.2 ⟨hp, Finset.mem_univ p⟩))
    have hreturn : step (Fintype.card P) bootstrap t p = some (t.goto p .returned) := by
      rw [step, hst]
      exact if_neg (not_lt.2 hps)
    have hrc := (hs.trans ht).trans (.single trivial hreturn)
    have hin := (h _ hrc p (stage_goto ..)).unlockFunc
    change t.unlockFunc = .mutex at hin
    rw [hu', hu] at hin
    cases hin
  · intro hc s hs
    have : Subsingleton P := (Fintype.card_le_one_iff_subsingleton).1 hc.le
    exact barrier_of_subsingleton hs

/-- Of two processors the second is through before the first has installed anything. -/
theorem lockSwitch_no_barrier :
    ¬ ∀ s : LockSwitch Bool, Reaches (step (Fintype.card Bool) true) (fun _ _ => True) start s →
      s.Barrier := by
  intro h
  have hrn : (runChecked (step 2 true) (fun _ _ => true) [true, false, false, false, false]
      start).map (fun s => (s.stage false, s.unlockFunc)) = some (.returned, .spin) := by decide
  obtain ⟨s, hs, he⟩ := map_eq_some_iff.1 hrn
  obtain ⟨hst, hu⟩ := Prod.mk.inj he
  have hin := (h s (.of_runChecked (fun _ _ _ => trivial) hs) false hst).unlockFunc
  rw [hu] at hin
  cases hin

/-! ## Nobody waits forever -/

section

variable [Fintype P] {bootstrap p : P} {s t : LockSwitch P}

/-- The counters are what the processors have added. -/
structure Counted (s : LockSwitch P) : Prop where
  sync : s.syncLockSwitch = ∑ p, entered (s.stage p)
  sync2 : s.syncLockSwitch2 = ∑ p, signaled (s.stage p)

theorem counted_step {procCount : Nat} (hi : s.Counted) (hst : step procCount bootstrap s p = some t) :
    t.Counted ∧ (t ≠ s → ∑ q, left (t.stage q) < ∑ q, left (s.stage q)) := by
  obtain rfl | ⟨u, stage, rfl, hu, hl, ha, hy, -⟩ := step_cases hst
  · exact ⟨hi, fun h => absurd rfl h⟩
  · obtain ⟨hs, hs2⟩ := hi
    have he := sum_univ_update entered s.stage p stage
    have hsg := sum_univ_update signaled s.stage p stage
    have hle := sum_univ_update left s.stage p stage
    have hgo : (u.goto p stage).stage = update s.stage p stage := by rw [← hu]; rfl
    refine ⟨⟨?_, ?_⟩, fun _ => ?_⟩
    · change u.syncLockSwitch = _
      rw [hgo]
      omega
    · change u.syncLockSwitch2 = _
      rw [hgo]
      omega
    · rw [hgo]
      omega

/-- A processor that none is behind is not kept waiting. -/
theorem exists_step (hi : s.Counted) (hp : s.stage p ≠ .returned)
    (hb : ∀ q, left (s.stage q) ≤ left (s.stage p)) :
    ∃ t, step (Fintype.card P) bootstrap s p = some t ∧ t ≠ s := by
  have hne : ∀ u stage, stage ≠ s.stage p → goto u p stage ≠ s := by
    rintro u stage h rfl
    exact h (stage_goto ..).symm
  have hc : ∀ f : SwitchStage → Nat, (∀ stage, left stage ≤ left (s.stage p) → 0 < f stage) →
      Fintype.card P ≤ ∑ q, f (s.stage q) := by
    intro f hf
    rw [← Finset.card_univ, Finset.card_eq_sum_ones]
    exact Finset.sum_le_sum fun q _ => hf _ (hb q)
  rw [step]
  cases hsg : s.stage p with
  | gathering =>
    rw [hsg] at hc
    have hle := hc entered fun stage => by cases stage <;> decide
    simp only [if_neg (not_lt.2 (hi.sync ▸ hle))]
    exact ⟨_, rfl, hne _ _ (by rw [hsg]; split <;> nofun)⟩
  | syncing =>
    rw [hsg] at hc
    have hle := hc signaled fun stage => by cases stage <;> decide
    simp only [if_neg (not_lt.2 (hi.sync2 ▸ hle))]
    exact ⟨_, rfl, hne _ _ (by rw [hsg]; nofun)⟩
  | returned => exact absurd hsg hp
  | _ => exact ⟨_, rfl, hne _ _ (by rw [hsg]; nofun)⟩

/-- **No processor is stuck**: from every state reached all of them can still return, and then the
functions are installed. -/
theorem lockSwitch_completes
    (h : Reaches (step (Fintype.card P) bootstrap) (fun _ _ => True) start s) :
    ∃ t, Reaches (step (Fintype.card P) bootstrap) (fun _ _ => True) s t ∧
      (∀ p, t.stage p = .returned) ∧ t.Installed := by
  obtain ⟨hi, hin⟩ : s.Counted ∧ s.InstalledAt (s.stage bootstrap) :=
    h.invariant (I := fun s => s.Counted ∧ s.InstalledAt (s.stage bootstrap))
      ⟨by constructor <;> simp [start, entered, signaled], trivial⟩
      fun _ _ _ hi _ hst => ⟨(counted_step hi.1 hst).1, installedAt_step hi.2 hst⟩
  clear h
  induction hn : ∑ q, left (s.stage q) using Nat.strong_induction_on generalizing s with
  | _ n ih =>
    have : Nonempty P := ⟨bootstrap⟩
    obtain ⟨p, hb⟩ := Finite.exists_max fun p => left (s.stage p)
    by_cases hp : s.stage p = .returned
    · have hr : ∀ q, s.stage q = .returned := by
        intro q
        have := hp ▸ hb q
        revert this
        cases s.stage q <;> decide
      rw [hr] at hin
      exact ⟨s, .refl, hr, hin⟩
    · obtain ⟨u, hu, hne⟩ := exists_step hi hp hb
      obtain ⟨hi, hlt⟩ := counted_step hi hu
      obtain ⟨t, ht, hr⟩ := ih _ (hn ▸ hlt hne) hi (installedAt_step hin hu) rfl
      exact ⟨t, (Reaches.single trivial hu).trans ht, hr⟩

end

theorem lockSwitch_completes_two : ∃ t : LockSwitch Bool,
    Reaches (step (Fintype.card Bool) true) (fun _ _ => True) start t ∧
      (∀ p, t.stage p = .returned) ∧ t.Installed :=
  lockSwitch_completes .refl

end LockSwitch

end Boron.Mm
