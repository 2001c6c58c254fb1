import Mathlib.Data.List.GetD
import Mathlib.Data.List.TakeWhile
import Boron.Ex.ObjectServices

/-! # The scan for the last separator of a name (`ob/dir.c`)

`ObpNormalizeParentDirectoryAndName` goes through a name from its end, with a `size_t` index that
wraps below zero. After the first separator that it meets it copies the rest to a buffer that has not
been cleared. `scan_spec` says that this splits the name as `splitName` does. -/

namespace Boron.Ob

open Function List

/-! ## The scan -/

/-- The character that ends a string. -/
def nul : Char := Char.ofNat 0

/-- A character of a string; the one after the last is the one that ends it. -/
def charAt (name : Name) (i : Nat) : Char := name.getD i nul

/-- The string in a buffer with `size` characters from `start` on. -/
def cString (buffer : Nat → Char) : (size start : Nat) → Name
  | 0, _ => []
  | size + 1, start =>
    if buffer start = nul then [] else buffer start :: cString buffer size (start + 1)

/-- `PathWithoutName`, `FinalName` and `StartCopying`. -/
structure NameScan where
  pathWithoutName : Nat → Char
  finalName : Option Name
  startCopying : Bool

namespace NameScan

/-- A turn of the loop. -/
def turn (name : Name) (s : NameScan) (index : Nat) : NameScan :=
  if s.startCopying then
    { s with pathWithoutName := update s.pathWithoutName index (charAt name index) }
  else if charAt name index = pathSeparator then
    { pathWithoutName := update s.pathWithoutName index nul
      finalName := some (name.drop (index + 1))
      startCopying := true }
  else s

/-- The loop, with `count` characters to go. The index below that of the first one is `MinIndex`. -/
def loop (name : Name) : (count : Nat) → NameScan → NameScan
  | 0, s => s
  | index + 1, s => loop name index (s.turn name index)

/-- The scan of a name, with a buffer that may hold anything. -/
def run (buffer : Nat → Char) (name : Name) : NameScan :=
  let s := loop name name.length ⟨update buffer name.length nul, none, false⟩
  if s.startCopying then s
  else
    { s with
      pathWithoutName := update s.pathWithoutName 0 nul
      finalName := some name }

variable {name path final : Name} {s : NameScan}

theorem loop_copies (hs : s.startCopying = true) (count : Nat) :
    loop name count s = { s with
      pathWithoutName := fun i => if i < count then charAt name i else s.pathWithoutName i } := by
  induction count generalizing s with
  | zero => rfl
  | succ index ih =>
    rw [loop, turn, if_pos hs, ih (s := { s with
      pathWithoutName := update s.pathWithoutName index (charAt name index) }) hs]
    refine congrArg (fun b => (⟨b, s.finalName, s.startCopying⟩ : NameScan)) (funext fun i => ?_)
    dsimp only
    by_cases hi : i = index
    · subst hi
      rw [if_neg (Nat.lt_irrefl i), if_pos (Nat.lt_succ_self i), update_self]
    · rw [update_of_ne hi]
      by_cases hlt : i < index
      · rw [if_pos hlt, if_pos (by omega)]
      · rw [if_neg hlt, if_neg (by omega)]

theorem loop_skips (hs : s.startCopying = false) (count k : Nat)
    (h : ∀ i, count ≤ i → i < count + k → charAt name i ≠ pathSeparator) :
    loop name (count + k) s = loop name count s := by
  induction k with
  | zero => rfl
  | succ k ih =>
    rw [← Nat.add_assoc, loop, turn, if_neg (by simp [hs]), if_neg (h _ (by omega) (by omega))]
    exact ih fun i hi hlt => h i hi (by omega)

theorem charAt_mem {i : Nat} (hi : i < name.length) : charAt name i ∈ name := by
  rw [charAt, getD_eq_getElem _ _ hi]
  exact getElem_mem hi

theorem run_alone (buf : Nat → Char) (h : pathSeparator ∉ name) :
    (run buf name).pathWithoutName 0 = nul ∧ (run buf name).finalName = some name := by
  have hp : loop name name.length ⟨update buf name.length nul, none, false⟩
      = ⟨update buf name.length nul, none, false⟩ := by
    have hsk : loop name (0 + name.length) ⟨update buf name.length nul, none, false⟩
        = loop name 0 ⟨update buf name.length nul, none, false⟩ :=
      loop_skips rfl 0 name.length fun i _ hi heq => h (heq ▸ charAt_mem (by omega))
    rw [Nat.zero_add] at hsk
    exact hsk
  unfold run
  rw [hp, if_neg Bool.false_ne_true]
  dsimp only
  exact ⟨update_self .., rfl⟩

theorem run_path (buffer : Nat → Char) (path : Name) (hfn : pathSeparator ∉ final) :
    ∃ b, run buffer (path ++ pathSeparator :: final) = ⟨b, some final, true⟩ ∧
      (∀ i, i < path.length → b i = charAt path i) ∧ b path.length = nul := by
  set name := path ++ pathSeparator :: final with hnm
  have hlength : name.length = path.length + 1 + final.length := by
    rw [hnm, length_append, length_cons]
    omega
  have ha : ∀ i, path.length + 1 ≤ i → i < path.length + 1 + final.length →
      charAt name i ≠ pathSeparator := by
    intro i hi hlt heq
    obtain ⟨k, rfl⟩ := Nat.exists_eq_add_of_le hi
    refine hfn (heq ▸ ?_)
    have hk : k < final.length := by omega
    rw [charAt, hnm, getD_append_right _ _ _ _ (by omega),
      show path.length + 1 + k - path.length = k + 1 by omega, getD_cons_succ]
    exact charAt_mem hk
  have hat : charAt name path.length = pathSeparator := by
    rw [charAt, hnm, getD_append_right _ _ _ _ le_rfl, Nat.sub_self, getD_cons_zero]
  have hdrop : name.drop (path.length + 1) = final := by
    rw [hnm, drop_append, drop_eq_nil_of_le (Nat.le_succ _), nil_append,
      Nat.add_sub_cancel_left, drop_succ_cons, drop_zero]
  have hp : loop name name.length ⟨update buffer name.length nul, none, false⟩
      = loop name path.length ⟨update (update buffer name.length nul) path.length nul,
          some final, true⟩ := by
    conv_lhs => rw [hlength]
    rw [loop_skips rfl (path.length + 1) final.length ha, loop, turn, if_neg Bool.false_ne_true,
      if_pos hat, hdrop, ← hlength]
  have hrn : run buffer name = ⟨fun i => if i < path.length then charAt name i
      else update (update buffer name.length nul) path.length nul i, some final, true⟩ := by
    unfold run
    rw [hp, loop_copies rfl]
    exact if_pos rfl
  refine ⟨_, hrn, fun i hi => ?_, ?_⟩
  · rw [if_pos hi, charAt, hnm, getD_append _ _ _ _ hi]
    rfl
  · rw [if_neg (Nat.lt_irrefl _), update_self]

end NameScan

variable {buf : Nat → Char} {size start : Nat}

theorem cString_eq {path : Name} (hsize : path.length < size)
    (hp : ∀ i, i < path.length → buf (start + i) = charAt path i)
    (he : buf (start + path.length) = nul) (hnl : nul ∉ path) :
    cString buf size start = path := by
  induction path generalizing size start with
  | nil =>
    obtain ⟨size, rfl⟩ := Nat.exists_eq_succ_of_ne_zero (Nat.ne_of_gt hsize)
    exact if_pos he
  | cons c path ih =>
    obtain ⟨size, rfl⟩ := Nat.exists_eq_succ_of_ne_zero (Nat.ne_of_gt (Nat.zero_lt_of_lt hsize))
    have hc : buf start = c := hp 0 (Nat.succ_pos _)
    obtain ⟨hne, hrs⟩ : nul ≠ c ∧ nul ∉ path := by simpa using hnl
    rw [cString, if_neg (by rw [hc]; exact hne.symm), hc, ih (by simpa using hsize) ?_ ?_ hrs]
    · intro i hi
      rw [Nat.add_right_comm]
      exact hp (i + 1) (Nat.succ_lt_succ hi)
    · rw [Nat.add_right_comm]
      exact he

theorem cString_eq_nil_iff (h : 0 < size) : cString buf size start = [] ↔ buf start = nul := by
  obtain ⟨size, rfl⟩ := Nat.exists_eq_succ_of_ne_zero (Nat.ne_of_gt h)
  rw [cString]
  by_cases hnl : buf start = nul
  · simp [hnl]
  · simp [hnl]

/-! ## The parts of a name -/

section

variable {name path final : Name}

theorem splitName_alone (h : pathSeparator ∉ name) : splitName name = ([], name) := by
  have ha : ∀ c ∈ name.reverse, decide (c ≠ pathSeparator) = true := by
    intro c hc
    rw [decide_eq_true_eq]
    rintro rfl
    exact h (mem_reverse.1 hc)
  unfold splitName
  rw [dropWhile_eq_nil_iff.2 ha, takeWhile_eq_self_iff.2 ha, reverse_reverse]
  rfl

theorem splitName_path (path : Name) (h : pathSeparator ∉ final) :
    splitName (path ++ pathSeparator :: final) = (path, final) := by
  have ha : ∀ c ∈ final.reverse, decide (c ≠ pathSeparator) = true := by
    intro c hc
    rw [decide_eq_true_eq]
    rintro rfl
    exact h (mem_reverse.1 hc)
  unfold splitName
  rw [reverse_append, reverse_cons, append_assoc, dropWhile_append_of_pos ha,
    takeWhile_append_of_pos ha]
  simp

theorem name_cases (name : Name) : pathSeparator ∉ name ∨
    ∃ path final, name = path ++ pathSeparator :: final ∧ pathSeparator ∉ final := by
  by_cases h : pathSeparator ∈ name
  · obtain ⟨as, bs, heq, has⟩ := eq_append_cons_of_mem (mem_reverse.2 h)
    refine .inr ⟨bs.reverse, as.reverse, ?_, fun hme => has (mem_reverse.1 hme)⟩
    rw [← reverse_reverse name, heq]
    simp
  · exact .inl h

theorem separator_not_mem_final (name : Name) : pathSeparator ∉ (splitName name).2 := by
  obtain h | ⟨path, final, rfl, h⟩ := name_cases name
  · rw [splitName_alone h]
    exact h
  · rw [splitName_path path h]
    exact h

/-- The scan splits a name as `splitName` does, whatever the buffer held. -/
theorem scan_spec (buffer : Nat → Char) (hnl : nul ∉ name) (hlength : name.length < obMaxPathLength) :
    (NameScan.run buffer name).finalName = some (splitName name).2 ∧
      cString (NameScan.run buffer name).pathWithoutName obMaxPathLength 0 = (splitName name).1 := by
  obtain h | ⟨path, final, rfl, h⟩ := name_cases name
  · obtain ⟨hp, hfn⟩ := NameScan.run_alone buffer h
    rw [splitName_alone h, hfn]
    exact ⟨rfl, (cString_eq_nil_iff (by decide)).2 hp⟩
  · obtain ⟨b, hrn, hc, he⟩ := NameScan.run_path buffer path h
    rw [hrn, splitName_path path h]
    refine ⟨rfl, cString_eq ?_ (fun i hi => ?_) ?_ fun hme => hnl (mem_append_left _ hme)⟩
    · rw [length_append, length_cons] at hlength
      dsimp only
      omega
    · rw [Nat.zero_add]
      exact hc i hi
    · rw [Nat.zero_add]
      exact he

end

end Boron.Ob
