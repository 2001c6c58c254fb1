import Mathlib.Logic.Function.Basic

/-! # Recursive mutexes

A recursive mutex is free or it has an owner, who may have acquired it any number of times and frees
it with the last release. What a thread knows of a mutex is its `depth`: how often it holds it. Two
threads never hold one mutex at a time, and a thread's depth changes by its own calls only. -/

namespace Boron

open Option

/-- A recursive mutex: free, or its owner and how often the owner holds it beyond the first time. -/
def Mutex (T : Type) : Type := Option (T × Nat)

namespace Mutex

variable {T : Type} [DecidableEq T]

/-- Nobody owns it. -/
def free : Mutex T := none

/-- `t` holds it, `n` times more than once. -/
def held (t : T) (n : Nat) : Mutex T := some (t, n)

/-- `none`: the thread has to wait. -/
def acquire (m : Mutex T) (t : T) : Option (Mutex T) :=
  match m with
  | none => some (some (t, 0))
  | some (u, n) => if u = t then some (some (t, n + 1)) else none

/-- `none`: the thread does not own the mutex. -/
def release (m : Mutex T) (t : T) : Option (Mutex T) :=
  match m with
  | none => none
  | some (u, n) =>
    if u = t then
      match n with
      | 0 => some none
      | n + 1 => some (some (t, n))
    else none

/-- How often a thread holds the mutex. -/
def depth (m : Mutex T) (t : T) : Nat :=
  match m with
  | none => 0
  | some (u, n) => if u = t then n + 1 else 0

/-- The thread that holds the mutex. -/
def owner (m : Mutex T) : Option T := m.map Prod.fst

omit [DecidableEq T] in
@[simp]
theorem owner_free : (free : Mutex T).owner = none := rfl

@[simp]
theorem depth_free (t : T) : (free : Mutex T).depth t = 0 := rfl

@[simp]
theorem acquire_free (t : T) : (free : Mutex T).acquire t = some (held t 0) := rfl

@[simp]
theorem acquire_held (t : T) (n : Nat) : (held t n).acquire t = some (held t (n + 1)) := if_pos rfl

@[simp]
theorem release_held_zero (t : T) : (held t 0).release t = some free := if_pos rfl

@[simp]
theorem release_held_succ (t : T) (n : Nat) : (held t (n + 1)).release t = some (held t n) :=
  if_pos rfl

theorem owner_eq_some {m : Mutex T} {t : T} (h : m.depth t ≠ 0) : m.owner = some t := by
  match m with
  | none => exact absurd rfl h
  | some (u, n) =>
    by_cases hu : u = t
    · exact congrArg some hu
    · exact absurd (if_neg hu) h

/-- An acquisition counts once more for the thread that made it. -/
theorem depth_acquire {m m' : Mutex T} {t : T} (h : m.acquire t = some m') (u : T) :
    m'.depth u = m.depth u + if u = t then 1 else 0 := by
  match m with
  | none =>
    cases h
    by_cases hu : t = u <;> simp [depth, hu, eq_comm (a := u)]
  | some (v, n) =>
    by_cases hv : v = t
    · simp only [acquire, if_pos hv] at h
      cases h
      by_cases hu : t = u <;> simp [depth, hv, hu, eq_comm (a := u)]
    · simp only [acquire, if_neg hv] at h
      cases h

/-- A release takes back one acquisition of the thread that makes it. -/
theorem depth_release {m m' : Mutex T} {t : T} (h : m.release t = some m') (u : T) :
    m.depth u = m'.depth u + if u = t then 1 else 0 := by
  match m, h with
  | some (v, n), h =>
    by_cases hv : v = t
    · simp only [release, if_pos hv] at h
      cases n with
      | zero =>
        cases h
        by_cases hu : t = u <;> simp [depth, hv, hu, eq_comm (a := u)]
      | succ n =>
        cases h
        by_cases hu : t = u <;> simp [depth, hv, hu, eq_comm (a := u)]
    · simp only [release, if_neg hv] at h
      cases h

end Mutex

end Boron
