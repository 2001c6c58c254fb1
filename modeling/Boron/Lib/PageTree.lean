import Mathlib.Data.List.Basic
import Mathlib.Algebra.Ring.Nat

/-! # Trees of pages that are built on the way down

A tree of pages is two partial maps: from a root label to a page, and from a page and a digit to
the page the digit links to. A page is named by the digits that lead to it, the last digit first,
so that the parent of `d :: up` is `up`. Pages at the full depth of their root hold data instead of
links, so what `child` says of them means nothing: every statement here is about paths no longer
than the depth.

The tree is `Proper` when no page is reached by two paths. Then a change to a data page moves no
path, and linking a fresh empty page adds exactly one path. -/

namespace Boron

open List Option

variable {R D P : Type*}

structure PageTree (R D P : Type*) where
  root : R → Option P
  child : P → D → Option P

namespace PageTree

/-- The page at the end of a path, given with its last digit first. -/
def node (t : PageTree R D P) (r : R) : List D → Option P
  | [] => t.root r
  | d :: up => (t.node r up).bind (t.child · d)

/-- Every page of the tree is owned, and reached by one path only. -/
structure Proper (t : PageTree R D P) (depth : R → Nat) (owned : P → Prop) : Prop where
  owned : ∀ {r up p}, up.length ≤ depth r → t.node r up = some p → owned p
  unique : ∀ {r r' up up' p}, up.length ≤ depth r → up'.length ≤ depth r' →
    t.node r up = some p → t.node r' up' = some p → r = r' ∧ up = up'

variable {t t' : PageTree R D P} {depth : R → Nat} {owned : P → Prop} {r : R} {up : List D}
  {p q : P} {d : D}

theorem node_cons_of_some (h : t.node r up = some p) : t.node r (d :: up) = t.child p d := by
  rw [node, h, bind_some]

theorem Proper.empty (h : ∀ r, t.root r = none) : t.Proper depth owned := by
  have hnn : ∀ r up, t.node r up = none := by
    intro r up
    induction up with
    | nil => exact h r
    | cons d up ih => rw [node, ih, bind_none]
  constructor
  · intro r up p _ hp
    rw [hnn] at hp
    cases hp
  · intro r r' up up' p _ _ hp
    rw [hnn] at hp
    cases hp

theorem Proper.congr (ht : t.Proper depth owned)
    (h : ∀ r up, up.length ≤ depth r → t'.node r up = t.node r up) : t'.Proper depth owned where
  owned hu hp := ht.owned hu (h _ _ hu ▸ hp)
  unique hu hu' hp hp' := ht.unique hu hu' (h _ _ hu ▸ hp) (h _ _ hu' ▸ hp')

/-- **A data page may hold anything.** A change of the page at full depth moves no path. -/
theorem Proper.node_of_data (ht : t.Proper depth owned) (hln : up.length = depth r)
    (hp : t.node r up = some p) (hrt : t'.root = t.root)
    (hc : ∀ q, q ≠ p → t'.child q = t.child q) {r' : R} {up' : List D}
    (hu' : up'.length ≤ depth r') : t'.node r' up' = t.node r' up' := by
  induction up' with
  | nil => rw [node, node, hrt]
  | cons d up' ih =>
    have hlt : up'.length < depth r' := hu'
    rw [node, node, ih (Nat.le_of_lt hlt)]
    cases hq : t.node r' up' with
    | none => rfl
    | some q =>
      have hne : q ≠ p := by
        rintro rfl
        obtain ⟨rfl, rfl⟩ := ht.unique (Nat.le_of_eq hln) (Nat.le_of_lt hlt) hp hq
        omega
      rw [bind_some, bind_some, hc q hne]

section

variable [DecidableEq R] [DecidableEq D]

variable {r' : R} {up' : List D}

/-- **Linking an empty page below another.** The path of the new page is the only one that is
added. -/
theorem Proper.node_of_link (ht : t.Proper depth owned) (hu : up.length < depth r)
    (hp : t.node r up = some p) (hd : t.child p d = none) (hq : ¬ owned q) (hpq : p ≠ q)
    (hrt : t'.root = t.root) (hw : ∀ e, t'.child q e = none) (hlk : t'.child p d = some q)
    (hsm : ∀ x e, x ≠ q → (x, e) ≠ (p, d) → t'.child x e = t.child x e) (hu' : up'.length ≤ depth r') :
    t'.node r' up' = if r' = r ∧ up' = d :: up then some q else t.node r' up' := by
  induction up' with
  | nil => simp [node, hrt]
  | cons e up' ih =>
    have hlt : up'.length < depth r' := hu'
    rw [node, ih (Nat.le_of_lt hlt)]
    split
    · -- Below the new page there is nothing, and there was nothing before.
      next h =>
        obtain ⟨rfl, rfl⟩ := h
        have hb : t.node r' (d :: up) = none := by rw [node_cons_of_some hp, hd]
        rw [bind_some, hw, node, hb, bind_none, if_neg]
        intro h
        have hln := congrArg List.length h.2
        simp at hln
    · next h =>
        cases hx : t.node r' up' with
        | none =>
          rw [bind_none, node, hx, bind_none, if_neg]
          rintro ⟨rfl, heq⟩
          obtain ⟨rfl, rfl⟩ := cons.inj heq
          rw [hx] at hp
          cases hp
        | some x =>
          have hxq : x ≠ q := fun h => hq (h ▸ ht.owned (Nat.le_of_lt hlt) hx)
          rw [bind_some, node_cons_of_some hx]
          split
          · next h =>
              obtain ⟨rfl, heq⟩ := h
              obtain ⟨rfl, rfl⟩ := cons.inj heq
              rw [hx] at hp
              obtain rfl := some.inj hp
              exact hlk
          · next hne =>
              refine hsm x e hxq fun heq => hne ?_
              obtain ⟨rfl, rfl⟩ := Prod.mk.inj heq
              obtain ⟨rfl, rfl⟩ := ht.unique (Nat.le_of_lt hu) (Nat.le_of_lt hlt) hp hx
              exact ⟨rfl, rfl⟩

omit [DecidableEq D] in
/-- **Linking an empty page at a root.** -/
theorem Proper.node_of_linkRoot (ht : t.Proper depth owned) (hr : t.root r = none)
    (hq : ¬ owned q) (hrt : ∀ x, t'.root x = if x = r then some q else t.root x)
    (hw : ∀ e, t'.child q e = none) (hsm : ∀ x, x ≠ q → t'.child x = t.child x) (hu' : up'.length ≤ depth r') :
    t'.node r' up' = if r' = r ∧ up' = [] then some q else t.node r' up' := by
  induction up' with
  | nil => simp [node, hrt]
  | cons e up' ih =>
    have hlt : up'.length < depth r' := hu'
    have hc : ¬ (r' = r ∧ e :: up' = []) := fun h => cons_ne_nil e up' h.2
    rw [if_neg hc, node, ih (Nat.le_of_lt hlt)]
    split
    · next h =>
        obtain ⟨rfl, rfl⟩ := h
        have hb : t.node r' [] = none := hr
        rw [bind_some, hw, node, hb, bind_none]
    · cases hx : t.node r' up' with
      | none => rw [bind_none, node, hx, bind_none]
      | some x =>
        have hxq : x ≠ q := fun h => hq (h ▸ ht.owned (Nat.le_of_lt hlt) hx)
        rw [bind_some, node_cons_of_some hx, hsm x hxq]

omit [DecidableEq R] [DecidableEq D] in
theorem Proper.add (ht : t.Proper depth owned) {owned' : P → Prop} {new : List D}
    {dec : ∀ (r' : R) (up' : List D), Decidable (r' = r ∧ up' = new)} (hq : ¬ owned q) (hq' : owned' q) (hb : ∀ x, owned x → owned' x)
    (hnd : ∀ {r' up'}, up'.length ≤ depth r' →
      t'.node r' up' = if r' = r ∧ up' = new then some q else t.node r' up') :
    t'.Proper depth owned' where
  owned hu hp := by
    rw [hnd hu] at hp
    split at hp
    · exact some.inj hp ▸ hq'
    · exact hb _ (ht.owned hu hp)
  unique hu hu' hp hp' := by
    rw [hnd hu] at hp
    rw [hnd hu'] at hp'
    split at hp <;> split at hp'
    · next h h' => exact ⟨h.1.trans h'.1.symm, h.2.trans h'.2.symm⟩
    · exact absurd (ht.owned hu' hp') (some.inj hp ▸ hq)
    · exact absurd (ht.owned hu hp) (some.inj hp' ▸ hq)
    · exact ht.unique hu hu' hp hp'

end

end PageTree

/-! ## Digits -/

/-- The `n` lowest digits of `c` in base `b`, the last one first. -/
def digitPath (b : Nat) : Nat → Nat → List Nat
  | 0, _ => []
  | n + 1, c => (c / b ^ n % b) :: digitPath b n c

@[simp] theorem length_digitPath (b n c : Nat) : (digitPath b n c).length = n := by
  induction n with
  | zero => rfl
  | succ n ih => rw [digitPath, length_cons, ih]

/-- The digits and the remaining quotient determine the number. -/
theorem digitPath_inj {b n c c' : Nat} (hp : digitPath b n c = digitPath b n c')
    (hrs : c / b ^ n = c' / b ^ n) : c = c' := by
  induction n with
  | zero => simpa using hrs
  | succ n ih =>
    obtain ⟨hdg, hp⟩ := cons.inj hp
    refine ih hp ?_
    rw [Nat.pow_succ, ← Nat.div_div_eq_div_mul, ← Nat.div_div_eq_div_mul] at hrs
    rw [← Nat.div_add_mod (c / b ^ n) b, ← Nat.div_add_mod (c' / b ^ n) b, hdg, hrs]

end Boron
