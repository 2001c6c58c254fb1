import Mathlib.Logic.Function.Basic

/-! # Runs of a labelled step function

A system is a partial step function `step : σ → α → Option σ` (`none`: the action is not possible,
or the code halts on an assertion). `Reaches step C s t` says that some run from `s` ends in `t` and
every action of it met the contract `C` in the state it was taken in. One rule serves every safety
property below: what holds at the start and is kept by each contract-abiding step holds in every
state reached. -/

namespace Boron

open Option

variable {σ τ α : Type*}

/-- `t` is reached from `s` by a run whose every action meets the contract `C`. -/
inductive Reaches (step : σ → α → Option σ) (C : σ → α → Prop) (s : σ) : σ → Prop
  | refl : Reaches step C s s
  | tail {t u : σ} {a : α} : Reaches step C s t → C t a → step t a = some u → Reaches step C s u

namespace Reaches

variable {step : σ → α → Option σ} {C C' : σ → α → Prop} {s t u : σ}

/-- **The invariant rule.** -/
theorem invariant {I : σ → Prop} (h : Reaches step C s t) (hs : I s)
    (hp : ∀ t a u, I t → C t a → step t a = some u → I u) : I t := by
  induction h with
  | refl => exact hs
  | tail _ hC hst ih => exact hp _ _ _ ih hC hst

/-- A run under a stronger contract is a run under a weaker one. -/
theorem mono (h : Reaches step C s t) (hCC : ∀ t a, C t a → C' t a) : Reaches step C' s t := by
  induction h with
  | refl => exact .refl
  | tail _ hC hst ih => exact .tail ih (hCC _ _ hC) hst

theorem trans (h : Reaches step C s t) (h' : Reaches step C t u) : Reaches step C s u := by
  induction h' with
  | refl => exact h
  | tail _ hC hst ih => exact .tail ih hC hst

theorem single {a : α} (hC : C s a) (hst : step s a = some t) : Reaches step C s t :=
  .tail .refl hC hst

end Reaches

/-! ## Runs as lists of actions -/

/-- Each step of the run that is taken meets `C` in the state it is taken in. -/
def Along (step : σ → α → Option σ) (C : σ → α → Prop) : σ → List α → Prop
  | _, [] => True
  | s, a :: as => ∀ t, step s a = some t → C s a ∧ Along step C t as

variable {as : List α}

theorem along_cons {step : σ → α → Option σ} {C : σ → α → Prop} {s t : σ} {a : α}
    (ht : step s a = some t) : Along step C s (a :: as) ↔ C s a ∧ Along step C t as := by
  rw [Along]
  constructor
  · exact fun h => h t ht
  · intro h u hu
    cases ht.symm.trans hu
    exact h

instance Along.decidable (step : σ → α → Option σ) (C : σ → α → Prop)
    [∀ s a, Decidable (C s a)] : ∀ (s : σ) (as : List α), Decidable (Along step C s as)
  | _, [] => .isTrue trivial
  | s, a :: as =>
    match ht : step s a with
    | none => .isTrue fun t h => by rw [ht] at h; cases h
    | some t =>
      have := Along.decidable step C t as
      decidable_of_iff (C s a ∧ Along step C t as) (along_cons ht).symm

/-- A contract that asks nothing of some actions. -/
theorem Along.of_forall {step : σ → α → Option σ} {C : σ → α → Prop}
    (h : ∀ a ∈ as, ∀ s, C s a) (s : σ) : Along step C s as := by
  induction as generalizing s with
  | nil => trivial
  | cons a as ih =>
    exact fun t _ => ⟨h a (by simp) s, ih (fun b hb => h b (by simp [hb])) t⟩

variable {I : σ → Prop}

theorem Along.of_invariant {step : σ → α → Option σ} {s : σ}
    (hs : I s) (hst : ∀ s a t, I s → step s a = some t → I t) :
    Along step (fun s _ => I s) s as := by
  induction as generalizing s with
  | nil => trivial
  | cons a as ih => exact fun t ht => ⟨hs, ih (hst s a t hs ht)⟩

/-- `I` holds in each state of the run. -/
def Stays (step : σ → α → Option σ) (I : σ → Prop) : σ → List α → Prop
  | s, [] => I s
  | s, a :: as => I s ∧ ∀ t, step s a = some t → Stays step I t as

theorem Stays.here {step : σ → α → Option σ} {s : σ} (h : Stays step I s as) : I s := by
  cases as with
  | nil => exact h
  | cons a as => exact h.1

/-- Where a step keeps `I` just if it meets `C`, a run keeps `I` just if all its steps meet `C`. -/
theorem stays_iff_along {step : σ → α → Option σ} {C E : σ → α → Prop} {s : σ} (hst : ∀ s a t, I s → E s a → step s a = some t → (I t ↔ C s a)) (hs : I s)
    (hE : Along step E s as) : Stays step I s as ↔ Along step C s as := by
  induction as generalizing s with
  | nil => exact iff_of_true hs trivial
  | cons a as ih =>
    constructor
    · intro h t ht
      have hrs := h.2 t ht
      have hC := (hst s a t hs (hE t ht).1 ht).1 hrs.here
      exact ⟨hC, (ih hrs.here (hE t ht).2).1 hrs⟩
    · intro h
      refine ⟨hs, fun t ht => ?_⟩
      have hI := (hst s a t hs (hE t ht).1 ht).2 (h t ht).1
      exact (ih hI (hE t ht).2).2 (h t ht).2

/-- Run a list of actions, each after an executable test of its contract. -/
def runChecked (step : σ → α → Option σ) (ok : σ → α → Bool) : List α → σ → Option σ
  | [], s => some s
  | a :: as, s => if ok s a then (step s a).bind (runChecked step ok as) else none

theorem Stays.at_end {step : σ → α → Option σ} {s t : σ}
    (h : Stays step I s as) (hrn : runChecked step (fun _ _ => true) as s = some t) : I t := by
  induction as generalizing s with
  | nil =>
    obtain rfl : s = t := some.inj hrn
    exact h
  | cons a as ih =>
    simp only [runChecked] at hrn
    split at hrn
    · obtain ⟨u, hu, hrs⟩ := bind_eq_some_iff.1 hrn
      exact ih (h.2 u hu) hrs
    · cases hrn

variable {ok : σ → α → Bool}

theorem Reaches.of_runChecked_mem {step : σ → α → Option σ}
    {C : σ → α → Prop} {s t : σ} (hok : ∀ s, ∀ a ∈ as, ok s a = true → C s a)
    (h : runChecked step ok as s = some t) : Reaches step C s t := by
  induction as generalizing s with
  | nil =>
    obtain rfl : s = t := some.inj h
    exact .refl
  | cons a as ih =>
    simp only [runChecked] at h
    split at h
    · next ha =>
        obtain ⟨u, hu, hrs⟩ := bind_eq_some_iff.1 h
        exact (Reaches.single (hok s a (by simp) ha) hu).trans
          (ih (fun s a ha => hok s a (by simp [ha])) hrs)
    · simp at h

theorem Reaches.of_runChecked {step : σ → α → Option σ} {C : σ → α → Prop}
    (hok : ∀ s a, ok s a = true → C s a) {s t : σ}
    (h : runChecked step ok as s = some t) : Reaches step C s t :=
  .of_runChecked_mem (fun s a _ => hok s a) h

end Boron
