import Mathlib.Data.Multiset.Replicate

/-! # Reference counts

An object that is there has a count (`some n`), one that is not has none. The references that exist
are a multiset of objects: `Counts count refs` says that every count is the number of references to
its object, and that there is no reference to an object that is not there. -/

namespace Boron

open Option

variable {O : Type*} [DecidableEq O]

/-- Every object is counted as often as it is referred to. -/
def Counts (count : O → Option Nat) (refs : Multiset O) : Prop :=
  ∀ o, refs.count o = (count o).getD 0

namespace Counts

variable {count : O → Option Nat} {refs : Multiset O} {o : O} {n : Nat}

section

variable (h : Counts count refs)
include h

/-- What is referred to is there. -/
theorem exists_succ (ho : o ∈ refs) : ∃ n, count o = some (n + 1) := by
  have hpos : 0 < refs.count o := Multiset.count_pos.2 ho
  rw [h o] at hpos
  cases hcount : count o with
  | none =>
    rw [hcount] at hpos
    exact absurd hpos (Nat.lt_irrefl 0)
  | some n =>
    rw [hcount, getD_some] at hpos
    exact ⟨n - 1, by rw [Nat.sub_add_cancel hpos]⟩

theorem notMem (ho : count o = none) : o ∉ refs := by
  intro hme
  obtain ⟨n, hn⟩ := h.exists_succ hme
  rw [ho] at hn
  cases hn

/-- An object whose count is a number has that many references. -/
theorem count_eq (ho : count o = some n) : refs.count o = n := by
  rw [h o, ho, getD_some]

/-- A new count, with as many more or fewer references. -/
theorem update {refs' : Multiset O} {x : Option Nat}
    (ho : refs'.count o = x.getD 0) (hother : ∀ p ≠ o, refs'.count p = refs.count p) :
    Counts (Function.update count o x) refs' := by
  intro p
  by_cases hp : p = o
  · rw [hp, Function.update_self, ho]
  · rw [Function.update_of_ne hp, hother p hp, h p]

theorem reference (ho : count o = some n) :
    Counts (Function.update count o (some (n + 1))) (o ::ₘ refs) := by
  refine h.update ?_ fun p hp => Multiset.count_cons_of_ne hp refs
  rw [Multiset.count_cons_self, h.count_eq ho, getD_some]

end

theorem dereference (h : Counts count (o ::ₘ refs)) (ho : count o = some (n + 1)) :
    Counts (Function.update count o (some n)) refs := by
  refine h.update ?_ fun p hp => (Multiset.count_cons_of_ne hp refs).symm
  have hcount := h.count_eq ho
  rw [Multiset.count_cons_self] at hcount
  rw [getD_some]
  omega

/-- An object that nothing refers to goes. -/
theorem delete (h : Counts count refs) (ho : o ∉ refs) : Counts (Function.update count o none) refs :=
  h.update (Multiset.count_eq_zero.2 ho) fun _ _ => rfl

/-- A new object, with its references. -/
theorem create (h : Counts count refs) (ho : count o = none) (n : Nat) :
    Counts (Function.update count o (some n)) (Multiset.replicate n o + refs) := by
  refine h.update ?_ fun p hp => ?_
  · rw [Multiset.count_add, Multiset.count_replicate_self, h o, ho, getD_none, getD_some, Nat.add_zero]
  · rw [Multiset.count_add, Multiset.count_replicate, if_neg hp.symm, Nat.zero_add]

end Counts

end Boron
