import Mathlib.Data.Set.Finite.Basic

/-! # Loops

The body of a loop takes a state to the next one, or leaves the loop with a result. A loop whose body
goes on from finitely many states only ends just if it does not come to a cycle. -/

namespace Boron

variable {σ β : Type*}

/-- At most `n` turns of a loop with this body. -/
def loop (body : σ → σ ⊕ β) : Nat → σ → Option β
  | 0, _ => none
  | n + 1, s =>
    match body s with
    | .inl t => loop body n t
    | .inr b => some b

/-- The loop ends with `b`. -/
def LoopEnds (body : σ → σ ⊕ β) (s : σ) (b : β) : Prop := ∃ n, loop body n s = some b

/-- The body goes on from `s` to `t`. -/
def GoesOn (body : σ → σ ⊕ β) (s t : σ) : Prop := body s = .inl t

variable {body : σ → σ ⊕ β} {s t : σ} {b c : β}

namespace LoopEnds

theorem of_inr (h : body s = .inr b) : LoopEnds body s b := ⟨1, by rw [loop, h]⟩

theorem inr_iff (h : body s = .inr b) : LoopEnds body s c ↔ c = b := by
  constructor
  · rintro ⟨n, hn⟩
    cases n with
    | zero => cases hn
    | succ n =>
      rw [loop, h] at hn
      exact (Option.some.inj hn).symm
  · rintro rfl
    exact of_inr h

theorem inl_iff (h : body s = .inl t) : LoopEnds body s b ↔ LoopEnds body t b := by
  constructor
  · rintro ⟨n, hn⟩
    cases n with
    | zero => cases hn
    | succ n =>
      rw [loop, h] at hn
      exact ⟨n, hn⟩
  · rintro ⟨n, hn⟩
    exact ⟨n + 1, by rw [loop, h]; exact hn⟩

end LoopEnds

/-- On a cycle there is always another turn. -/
theorem loop_eq_none_of_cycle (hc : Relation.TransGen (GoesOn body) t t)
    (hrc : Relation.ReflTransGen (GoesOn body) s t) (n : Nat) : loop body n s = none := by
  induction n generalizing s with
  | zero => rfl
  | succ n ih =>
    obtain ⟨u, hgo, hrs⟩ : ∃ u, GoesOn body s u ∧ Relation.ReflTransGen (GoesOn body) u t := by
      rcases hrc.cases_head with rfl | h
      · exact Relation.TransGen.head'_iff.1 hc
      · exact h
    rw [loop, show body s = .inl u from hgo]
    exact ih hrs

/-- **A loop with finitely many states to go on from ends just if it comes to no cycle.** -/
theorem loop_ends_iff (hfn : {s | ∃ t, GoesOn body s t}.Finite) : (∃ b, LoopEnds body s b) ↔
      ∀ t, Relation.ReflTransGen (GoesOn body) s t → ¬ Relation.TransGen (GoesOn body) t t := by
  constructor
  · rintro ⟨b, n, hn⟩ t hrc hc
    rw [loop_eq_none_of_cycle hc hrc] at hn
    cases hn
  · intro ha
    -- the states that are reached and gone on from, with those that are later below
    let Later := {t // Relation.ReflTransGen (GoesOn body) s t ∧ ∃ u, GoesOn body t u}
    let later (u t : Later) : Prop := Relation.TransGen (GoesOn body) t.1 u.1
    have hfi : Finite Later := (hfn.subset fun t ht => ht.2).to_subtype
    have : IsTrans Later later := ⟨fun _ _ _ h₁ h₂ => h₂.trans h₁⟩
    have : Std.Irrefl later := ⟨fun t => ha t.1 t.2.1⟩
    have hw : WellFounded later := Finite.wellFounded_of_trans_of_irrefl later
    have he : ∀ t : Later, ∃ b, LoopEnds body t.1 b := by
      intro t
      refine hw.induction (C := fun t : Later => ∃ b, LoopEnds body t.1 b) t ?_
      rintro ⟨t, hrc, u, hgo⟩ ih
      have hgo' : body t = .inl u := hgo
      simp only [LoopEnds.inl_iff hgo']
      cases hu : body u with
      | inl v => exact ih ⟨u, hrc.tail hgo, v, hu⟩ (.single hgo)
      | inr b => exact ⟨b, .of_inr hu⟩
    cases hs : body s with
    | inl u => exact he ⟨s, .refl, u, hs⟩
    | inr b => exact ⟨b, .of_inr hs⟩

end Boron
