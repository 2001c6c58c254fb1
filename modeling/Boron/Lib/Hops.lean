import Mathlib.Logic.Function.Basic

/-! # Counted hops of a relation

A loop with a bound on its turns follows a relation for fewer than `n` hops. `Within` says that it
gets to a state with a property before the bound, and `Settles` that it never uses up the bound and
that every state on the way has a property. Both are taken apart one hop at a time. -/

namespace Boron

variable {σ : Type*}

/-- `y` is reached from `x` by `n` hops. -/
def Hops (r : σ → σ → Prop) : Nat → σ → σ → Prop
  | 0, x, y => x = y
  | n + 1, x, y => ∃ z, r x z ∧ Hops r n z y

/-- A state with the property is reached by fewer than `n` hops. -/
def Within (r : σ → σ → Prop) (n : Nat) (x : σ) (P : σ → Prop) : Prop :=
  ∃ k < n, ∃ y, Hops r k x y ∧ P y

/-- There is no chain of `n` hops, and every state on the way has the property. -/
def Settles (r : σ → σ → Prop) (n : Nat) (P : σ → Prop) (x : σ) : Prop :=
  (∀ y, ¬ Hops r n x y) ∧ ∀ k < n, ∀ y, Hops r k x y → P y

section

variable {r : σ → σ → Prop} {P : σ → Prop} {x z : σ} {n : Nat}

theorem not_within_zero : ¬ Within r 0 x P := fun ⟨_, hk, _⟩ => absurd hk (Nat.not_lt_zero _)

theorem not_settles_zero : ¬ Settles r 0 P x := fun h => h.1 x rfl

theorem within_succ : Within r (n + 1) x P ↔ P x ∨ ∃ z, r x z ∧ Within r n z P := by
  constructor
  · rintro ⟨k, hk, y, hy, hP⟩
    cases k with
    | zero =>
      obtain rfl : x = y := hy
      exact .inl hP
    | succ k =>
      obtain ⟨z, hz, hrs⟩ := hy
      exact .inr ⟨z, hz, k, by omega, y, hrs, hP⟩
  · rintro (hP | ⟨z, hz, k, hk, y, hy, hP⟩)
    · exact ⟨0, by omega, x, rfl, hP⟩
    · exact ⟨k + 1, by omega, y, ⟨z, hz, hy⟩, hP⟩

theorem settles_succ : Settles r (n + 1) P x ↔ P x ∧ ∀ z, r x z → Settles r n P z := by
  constructor
  · rintro ⟨he, ha⟩
    refine ⟨ha 0 (by omega) x rfl, fun z hz => ⟨fun y hy => he y ⟨z, hz, hy⟩, ?_⟩⟩
    intro k hk y hy
    exact ha (k + 1) (by omega) y ⟨z, hz, hy⟩
  · rintro ⟨hP, hnext⟩
    refine ⟨fun y ⟨z, hz, hy⟩ => (hnext z hz).1 y hy, fun k hk y hy => ?_⟩
    cases k with
    | zero =>
      obtain rfl : x = y := hy
      exact hP
    | succ k =>
      obtain ⟨z, hz, hrs⟩ := hy
      exact (hnext z hz).2 k (by omega) y hrs

/-- What holds at the start and is kept by every hop holds wherever the hops lead. -/
theorem Within.invariant {I : σ → Prop} (h : Within r n x P) (hx : I x)
    (hst : ∀ y z, I y → r y z → I z) : Within r n x fun y => P y ∧ I y := by
  obtain ⟨k, hk, y, hy, hP⟩ := h
  refine ⟨k, hk, y, hy, hP, ?_⟩
  clear hk
  induction k generalizing x with
  | zero =>
    obtain rfl : x = y := hy
    exact hx
  | succ k ih =>
    obtain ⟨z, hz, hrs⟩ := hy
    exact ih (hst x z hx hz) hrs

end

end Boron
