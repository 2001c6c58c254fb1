import Boron.Lib.Ring

/-! # Counting around a ring

The two ends of a ring of `n` slots count the entries they have passed; only the counts modulo `n`
are kept. Two counts that are less than a lap apart can be told from each other, so that a ring with
one free slot is never mistaken for an empty one. Where entries carry a phase tag that changes from
lap to lap, the reader needs no count of the writer's: `PhaseRing.phase_eq_iff`. -/

namespace Boron

open Function List

variable {α : Type*} {n : Nat}

theorem mod_eq_mod_iff_of_lap {a b : Nat} (hle : a ≤ b) (hp : b < a + n) : a % n = b % n ↔ a = b := by
  constructor
  · intro hmd
    by_contra hne
    have hlt : a < b := Nat.lt_of_le_of_ne hle hne
    have hrn : (0 + a) % n ≠ (0 + b) % n := ring_ne hlt (by omega)
    rw [Nat.zero_add, Nat.zero_add] at hrn
    exact hrn hmd
  · rintro rfl
    rfl

theorem succ_mod (a : Nat) : (a % n + 1) % n = (a + 1) % n := Nat.mod_add_mod ..

/-! ## Slots -/

/-- The slots of the ring still hold the entries from `lo` on. -/
def RingHolds (n : Nat) (ring : Nat → α) (entries : List α) (lo : Nat) : Prop :=
  ∀ i, lo ≤ i → ∀ h : i < entries.length, ring (i % n) = entries[i]

namespace RingHolds

variable {ring : Nat → α} {entries : List α} {lo : Nat}

theorem mono (h : RingHolds n ring entries lo) {lo' : Nat} (hle : lo ≤ lo') :
    RingHolds n ring entries lo' :=
  fun i hi => h i (Nat.le_trans hle hi)

/-- The next slot can be written as long as less than a lap is in use. -/
theorem push (h : RingHolds n ring entries lo) (hrm : entries.length < lo + n) (x : α) :
    RingHolds n (update ring (entries.length % n) x) (entries ++ [x]) lo := by
  intro i hi hln
  rw [length_append, length_singleton] at hln
  rcases Nat.lt_succ_iff_lt_or_eq.1 hln with hlt | rfl
  · have hne : i % n ≠ entries.length % n := by
      rw [Ne, mod_eq_mod_iff_of_lap (by omega) (by omega)]
      omega
    rw [update_of_ne hne, h i hi hlt, getElem_append_left hlt]
  · rw [update_self, getElem_concat_length rfl]

end RingHolds

/-! ## Phases -/

/-- The phase tag of the `i`-th entry: set on the first lap, and the other one on each next lap. -/
def lapPhase (n i : Nat) : Bool := i / n % 2 = 0

theorem lapPhase_of_lt {i : Nat} (h : i < n) : lapPhase n i = true := by
  rw [lapPhase, Nat.div_eq_of_lt h]
  rfl

theorem lapPhase_add (hn : 0 < n) (i : Nat) : lapPhase n (i + n) = !lapPhase n i := by
  rw [lapPhase, lapPhase, Nat.add_div_right i hn]
  rcases Nat.mod_two_eq_zero_or_one (i / n) with h | h
  · have hc : (i / n).succ % 2 = 1 := by omega
    simp [h, hc]
  · have hc : (i / n).succ % 2 = 0 := by omega
    simp [h, hc]

/-- The tag changes when the index comes back to the start. -/
theorem lapPhase_succ (i : Nat) :
    lapPhase n (i + 1) = if (i + 1) % n = 0 then !lapPhase n i else lapPhase n i := by
  rw [lapPhase, lapPhase, Nat.succ_div]
  by_cases hdv : n ∣ i + 1
  · rw [if_pos hdv, if_pos (Nat.mod_eq_zero_of_dvd hdv)]
    rcases Nat.mod_two_eq_zero_or_one (i / n) with h | h
    · have hc : (i / n + 1) % 2 = 1 := by omega
      simp [h, hc]
    · have hc : (i / n + 1) % 2 = 0 := by omega
      simp [h, hc]
  · rw [if_neg hdv, if_neg (fun hmd => hdv (Nat.dvd_of_mod_eq_zero hmd)), Nat.add_zero]

/-- A ring whose entries carry the phase tags of their laps, in memory that was zero before. -/
structure PhaseRing (n : Nat) (ring : Nat → α) (phase : α → Bool) (entries : List α) : Prop where
  holds : RingHolds n ring entries (entries.length - n)
  fresh : ∀ x, entries.length ≤ x → x < n → phase (ring x) = false
  tagged : ∀ i, ∀ h : i < entries.length, phase entries[i] = lapPhase n i

namespace PhaseRing

variable {ring : Nat → α} {phase : α → Bool} {entries : List α}

theorem push (h : PhaseRing n ring phase entries) {x : α} (hx : phase x = lapPhase n entries.length) :
    PhaseRing n (update ring (entries.length % n) x) phase (entries ++ [x]) := by
  refine ⟨?_, fun y hln hy => ?_, fun i hi => ?_⟩
  · rw [length_append, length_singleton]
    exact (h.holds.mono (by omega)).push (by omega) x
  · rw [length_append, length_singleton] at hln
    have hne : y ≠ entries.length % n := by
      rw [Nat.mod_eq_of_lt (by omega)]
      omega
    rw [update_of_ne hne]
    exact h.fresh y (by omega) hy
  · rw [length_append, length_singleton] at hi
    rcases Nat.lt_succ_iff_lt_or_eq.1 hi with hlt | rfl
    · rw [getElem_append_left hlt]
      exact h.tagged i hlt
    · rw [getElem_concat_length rfl]
      exact hx

theorem read (h : PhaseRing n ring phase entries) {c : Nat} (hc : c < entries.length)
    (hp : entries.length ≤ c + n) : ring (c % n) = entries[c] :=
  h.holds c (by omega) hc

/-- **What the phase tag says.** The reader's next slot has the reader's phase exactly if the writer
has been there. -/
theorem phase_eq_iff (h : PhaseRing n ring phase entries) (hn : 0 < n) {c : Nat}
    (hle : c ≤ entries.length) (hlp : entries.length ≤ c + n) :
    phase (ring (c % n)) = lapPhase n c ↔ c < entries.length := by
  constructor
  · intro hp
    by_contra hnt
    obtain rfl : c = entries.length := by omega
    by_cases hfs : entries.length < n
    · rw [Nat.mod_eq_of_lt hfs, h.fresh _ (Nat.le_refl _) hfs, lapPhase_of_lt hfs] at hp
      cases hp
    · -- The slot still holds the entry of the lap before.
      obtain ⟨i, hi⟩ : ∃ i, entries.length = i + n := ⟨entries.length - n, by omega⟩
      have hlt : i < entries.length := by omega
      have hsl := h.holds i (by omega) hlt
      rw [hi, Nat.add_mod_right, hsl, h.tagged i hlt, lapPhase_add hn] at hp
      cases hp' : lapPhase n i <;> rw [hp'] at hp <;> cases hp
  · intro hlt
    rw [h.read hlt hlp, h.tagged c hlt]

end PhaseRing

end Boron
