import Mathlib.Algebra.BigOperators.Group.Finset.Basic
import Mathlib.Data.Fintype.Card

/-! # Sums over a function updated at one point

Counters of a system are sums over its parts, and a step changes one part. -/

namespace Boron

open Function

variable {ι α : Type*} [DecidableEq ι]

/-- Updating one summand exchanges its contribution. -/
theorem sum_update (s : Finset ι) (f : α → Nat) (g : ι → α) {i : ι} (hi : i ∈ s) (v : α) :
    ∑ j ∈ s, f (update g i v j) + f (g i) = ∑ j ∈ s, f (g j) + f v := by
  have hrs : ∑ j ∈ s.erase i, f (update g i v j) = ∑ j ∈ s.erase i, f (g j) := by
    apply Finset.sum_congr rfl
    intro j hj
    rw [update_of_ne (Finset.ne_of_mem_erase hj)]
  rw [← Finset.add_sum_erase s _ hi, ← Finset.add_sum_erase s (fun j => f (g j)) hi, hrs, update_self]
  omega

/-- The same over a whole finite type. -/
theorem sum_univ_update [Fintype ι] (f : α → Nat) (g : ι → α) (i : ι) (v : α) :
    ∑ j, f (update g i v j) + f (g i) = ∑ j, f (g j) + f v :=
  sum_update Finset.univ f g (Finset.mem_univ i) v

end Boron
