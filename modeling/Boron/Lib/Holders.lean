import Mathlib.Data.Set.Card

/-! # Counting the holders of a resource

A resource is shared by holders, each of which names at most one: page table entries name page
frames, array slots name blocks. A reference count is right if it is the number of holders that name
the resource, its `tally`; a step of a program changes what one holder names. -/

namespace Boron

open Function

variable {H R : Type*}

/-- How many holders name the resource. -/
noncomputable def tally (holds : H → Option R) (r : R) : Nat := Set.ncard {h | holds h = some r}

/-- Only finitely many holders name anything. -/
def Few (holds : H → Option R) : Prop := {h | holds h ≠ none}.Finite

variable {holds : H → Option R} {r : R}

theorem Few.finite (hf : Few holds) (r : R) : {h | holds h = some r}.Finite :=
  hf.subset fun h (hh : holds h = some r) => by simp [hh]

theorem few_none : Few fun _ : H => (none : Option R) := by
  simp [Few]

theorem tally_eq_zero (h : ∀ k, holds k ≠ some r) : tally holds r = 0 := by
  have he : {k | holds k = some r} = ∅ := Set.eq_empty_of_forall_notMem h
  rw [tally, he, Set.ncard_empty]

section

variable [DecidableEq H] {h : H} {x : Option R}

theorem Few.update (hf : Few holds) (h : H) (x : Option R) : Few (update holds h x) := by
  refine (hf.insert h).subset fun k hk => ?_
  by_cases hh : k = h
  · exact .inl hh
  · exact .inr (by rwa [Set.mem_ofPred_eq, update_of_ne hh] at hk)

/-- A holder that named nothing takes the resource. -/
theorem tally_take (hf : Few holds) (hh : holds h = none) :
    tally (update holds h (some r)) r = tally holds r + 1 := by
  have hst : {k | update holds h (some r) k = some r} = insert h {k | holds k = some r} := by
    ext k
    by_cases hkh : k = h
    · simp [hkh]
    · simp [hkh]
  rw [tally, hst, Set.ncard_insert_of_notMem (by simp [hh]) (hf.finite r), tally]

/-- What a holder names makes a difference to that resource only. -/
theorem tally_update_of_ne (hh : holds h ≠ some r) (hx : x ≠ some r) :
    tally (update holds h x) r = tally holds r := by
  have hst : {k | update holds h x k = some r} = {k | holds k = some r} := by
    ext k
    by_cases hkh : k = h
    · simp [hkh, hh, hx]
    · simp [update_of_ne hkh]
  rw [tally, hst, tally]

variable [DecidableEq R]

/-- **The exchange rule**: a holder lets one resource go and takes another. -/
theorem tally_update (hf : Few holds) (h : H) (x : Option R) (r : R) :
    tally (update holds h x) r + (holds h).toList.count r = tally holds r + x.toList.count r := by
  have hcount : ∀ y : Option R, tally (update holds h y) r =
      tally (update holds h none) r + y.toList.count r := by
    intro y
    by_cases hy : y = some r
    · have htk := tally_take (r := r) (hf.update h none) (update_self h none holds)
      rw [update_idem] at htk
      simp [hy, htk]
    · have hz : y.toList.count r = 0 :=
        List.count_eq_zero.2 fun hme => hy (Option.mem_toList.1 hme)
      have hsm : tally (update (update holds h none) h y) r =
          tally (update holds h none) r := tally_update_of_ne (by simp) hy
      rw [update_idem] at hsm
      rw [hsm, hz, Nat.add_zero]
  have hold := hcount (holds h)
  rw [update_eq_self] at hold
  rw [hcount x, hold]
  omega

end

end Boron
