import Boron.Ex.HandleTables

/-! # Duplicating a handle

`ExDuplicateHandle` reserves a slot with the pointer `0x1` and then reads the source slot, without
asking whether there is a handle in it; `ExDuplicateHandleToHandle` destroys the pointer of its target
before it reads the source and before it knows that the copy can be made. A `Duplication` is a call
with what it hands to its callbacks. -/

namespace Boron.Ex

open Function Option

/-- A duplicating call: how it returns, if it does; the pointer it hands to `DuplicateMethod`, if it
    gets there; and the handle whose pointer it has had `KillHandleMethod` destroy. -/
structure Duplication where
  outcome : Option (HandleTable × HandleResult)
  given : Option Nat
  killed : Option Nat

namespace Duplication

/-- The call returns without having called back. -/
def silent (outcome : Option (HandleTable × HandleResult)) : Duplication := ⟨outcome, none, none⟩

/-- A duplication of `source` as it should be: `DuplicateMethod` gets a pointer that is live in the
    table, a source without a handle is an invalid handle, and a failure leaves every handle with its
    pointer, none of them destroyed. -/
structure Right (d : Duplication) (t : HandleTable) (source : Nat) : Prop where
  live : ∀ p, d.given = some p → t.handles source = some p ∧ d.killed ≠ some source
  unoccupied : t.handles source = none → ∃ t', d.outcome = some (t', .error .invalidHandle)
  failed : ∀ t' status, d.outcome = some (t', .error status) →
    t'.handles = t.handles ∧ d.killed = none

end Duplication

namespace HandleTable

variable {t t' : HandleTable}

/-! ## The calls, with what they hand to their callbacks -/

/-- `ExDuplicateHandle`. -/
def duplicateHandle (t : HandleTable) (handle : Nat) (duplicate : Nat → Nat)
    (growRoom shrinkRoom : Bool) : Duplication :=
  if !expCheckHandleCorrectness handle then .silent (some (t, .error .invalidHandle))
  else if t.capacity ≤ handleToIndex handle then .silent (some (t, .error .invalidHandle))
  else
    match t.expCreateHandle 1 growRoom with
    | none => .silent none
    | some (t, .error status) => .silent (some (t, .error status))
    | some (t, .ok i) =>
      match t.handleMap[handleToIndex handle]? with
      | none => .silent none
      | some object =>
        { outcome :=
            if duplicate object = 0 then
              (t.expDeleteHandle i shrinkRoom).map (·, .error .unsupportedFunction)
            else
              some ({ t with handleMap := t.handleMap.set i (duplicate object) },
                .ok (indexToHandle i))
          given := some object
          killed := none }

/-- `ExDuplicateHandleToHandle`. -/
def duplicateHandleTo (t : HandleTable) (handle newHandle : Nat) (duplicate : Nat → Nat)
    (kill : Nat → Bool) : Duplication :=
  if !expCheckHandleCorrectness handle || !expCheckHandleCorrectness newHandle then
    .silent (some (t, .error .invalidHandle))
  else if t.capacity ≤ handleToIndex handle ∨ t.capacity ≤ handleToIndex newHandle then
    .silent (some (t, .error .invalidHandle))
  else
    match t.handleMap[handleToIndex newHandle]?, t.handleMap[handleToIndex handle]? with
    | some old, some object =>
      if old ≠ 0 ∧ kill old = false then .silent (some (t, .error .deleteCanceled))
      else
        { outcome :=
            if duplicate object = 0 then some (t, .error .unsupportedFunction)
            else some (t.place (handleToIndex newHandle) (duplicate object), .ok 0)
          given := some object
          killed := if old = 0 then none else some newHandle }
    | _, _ => .silent none

theorem duplicateHandle_outcome (t : HandleTable) (handle : Nat) (duplicate : Nat → Nat)
    (growRoom shrinkRoom : Bool) :
    (t.duplicateHandle handle duplicate growRoom shrinkRoom).outcome =
      t.exDuplicateHandle handle duplicate growRoom shrinkRoom := by
  unfold duplicateHandle exDuplicateHandle
  by_cases hcr : (!expCheckHandleCorrectness handle) = true
  · rw [if_pos hcr, if_pos hcr]
    rfl
  · rw [if_neg hcr, if_neg hcr]
    by_cases hc : t.capacity ≤ handleToIndex handle
    · rw [if_pos hc, if_pos hc]
      rfl
    · rw [if_neg hc, if_neg hc]
      cases t.expCreateHandle 1 growRoom with
      | none => rfl
      | some r =>
        obtain ⟨new, result⟩ := r
        cases result with
        | error status => rfl
        | ok i =>
          dsimp only
          cases new.handleMap[handleToIndex handle]? with
          | none => rfl
          | some object => rfl

/-- A call that refuses its handles is as it should be. -/
theorem right_silent (t : HandleTable) (src : Nat) :
    (Duplication.silent (some (t, .error .invalidHandle))).Right t src where
  live p hp := by cases hp
  unoccupied _ := ⟨t, rfl⟩
  failed t' status h := by
    cases h
    exact ⟨rfl, rfl⟩

/-! ## `ExDuplicateHandle` -/

theorem duplicateHandle_killed (t : HandleTable) (handle : Nat) (dup : Nat → Nat) (gr sr : Bool) :
    (t.duplicateHandle handle dup gr sr).killed = none := by
  unfold duplicateHandle
  split
  · rfl
  · split
    · rfl
    · split
      · rfl
      · rfl
      · split <;> rfl

variable {dup : Nat → Nat} {gr sr : Bool}

/-- A call that comes back without a copy has put the table in order again. -/
theorem exDuplicateHandle_failed (ht : t.Ok) {handle : Nat} {st : HandleStatus}
    (h : t.exDuplicateHandle handle dup gr sr = some (t', .error st)) :
    t'.handles = t.handles := by
  unfold exDuplicateHandle at h
  split at h
  · cases h
    rfl
  · split at h
    · cases h
      rfl
    · split at h
      · cases h
      · next hc =>
          cases h
          obtain ⟨rfl, -⟩ | ⟨i, hr, -⟩ := expCreateHandle_cases ht Nat.one_ne_zero hc
          · rfl
          · cases hr
      · next t₁ i hc =>
          obtain ⟨-, hr | hr⟩ | ⟨j, hj, hp, -⟩ :=
            expCreateHandle_cases ht Nat.one_ne_zero hc
          · cases hr
          · cases hr
          · cases hj
            split at h
            · cases h
            · split at h
              · obtain ⟨t₂, hdl, heq⟩ := map_eq_some_iff.1 h
                cases heq
                have hrs : t₁.entry i = some 1 := by
                  rw [hp.entry, update_self]
                obtain ⟨hh, -⟩ := expDeleteHandle_cases hp.ok hrs hdl
                refine handles_congr ?_
                rw [hh.entry, hp.entry, update_idem, ← hp.free, update_eq_self]
              · cases h

variable {i : Nat}

/-- A source slot with a pointer is not the slot that is reserved. -/
theorem given_of_duplicateHandle (ht : t.Ok) {p : Nat} (hp : t.entry i = some p) {q : Nat}
    (h : (t.duplicateHandle ((i + 1) * 4) dup gr sr).given = some q) :
    q = p := by
  have hi : ¬ t.capacity ≤ i := by
    have := lt_of_entry hp
    have := ht.length
    omega
  unfold duplicateHandle at h
  rw [correct_handle, handleToIndex_handle, if_neg (by decide), if_neg hi] at h
  split at h
  · cases h
  · cases h
  · next t₁ j hc =>
      obtain ⟨-, hr | hr⟩ | ⟨k, hk, hpl, -⟩ := expCreateHandle_cases ht Nat.one_ne_zero hc
      · cases hr
      · cases hr
      · cases hk
        have hj : i ≠ j := by
          rintro rfl
          rw [hpl.free] at hp
          cases hp
        have hsr : t₁.handleMap[i]? = some p := by
          have he : t₁.entry i = some p := by
            rw [hpl.entry, update_of_ne hj, hp]
          exact (entry_eq_some.1 he).1
        rw [hsr] at h
        exact (some.inj h).symm

/-- A source slot without a handle is not noticed: the method is called, or the table has no slot to
    reserve. -/
theorem duplicateHandle_unoccupied (ht : t.Ok) (hi : i < t.capacity) (dup : Nat → Nat) (gr sr : Bool) :
    (∃ q, (t.duplicateHandle ((i + 1) * 4) dup gr sr).given = some q) ∨
      ∀ t', (t.duplicateHandle ((i + 1) * 4) dup gr sr).outcome ≠ some (t', .error .invalidHandle) := by
  unfold duplicateHandle
  rw [correct_handle, handleToIndex_handle, if_neg (by decide), if_neg (Nat.not_le_of_lt hi)]
  split
  · exact .inr fun t' h => some_ne_none _ h.symm
  · next hc =>
      right
      intro t' h
      cases h
      obtain ⟨-, hr | hr⟩ | ⟨k, hk, -⟩ := expCreateHandle_cases ht Nat.one_ne_zero hc
      · cases hr
      · cases hr
      · cases hk
  · split
    · exact .inr fun t' h => some_ne_none _ h.symm
    · exact .inl ⟨_, rfl⟩

theorem duplicateHandle_right_iff (ht : t.Ok) (handle : Nat) (duplicate : Nat → Nat)
    (growRoom shrinkRoom : Bool) :
    (t.duplicateHandle handle duplicate growRoom shrinkRoom).Right t handle ↔
      (expCheckHandleCorrectness handle → handleToIndex handle < t.capacity →
        t.handles handle ≠ none) := by
  obtain ⟨hb, hnn⟩ | ⟨i, object, rfl, hi, hgt, hsm⟩ := handles_cases ht handle
  · have hsl : t.duplicateHandle handle duplicate growRoom shrinkRoom =
        .silent (some (t, .error .invalidHandle)) := by
      unfold duplicateHandle
      obtain hb | hb := hb
      · rw [if_pos hb]
      · rw [if_pos hb, ite_self]
    rw [hsl]
    refine iff_of_true (right_silent t handle) fun hc hlt => ?_
    obtain hb | hb := hb
    · rw [hc] at hb
      cases hb
    · omega
  · have hx := handleToIndex_handle i
    constructor
    · intro h _ _ hnn
      obtain ⟨t', hot⟩ := h.unoccupied hnn
      obtain ⟨q, hq⟩ | hne := duplicateHandle_unoccupied ht hi duplicate growRoom shrinkRoom
      · have := (h.live q hq).1
        rw [hnn] at this
        cases this
      · exact hne t' hot
    · intro h
      have hlv := h (correct_handle i) (by rw [hx]; exact hi)
      refine ⟨fun q hq => ?_, fun hnn => absurd hnn hlv, fun t' status hot => ?_⟩
      · obtain ⟨p, hp⟩ := ne_none_iff_exists'.1 hlv
        rw [handles_handle] at hp
        obtain rfl := given_of_duplicateHandle ht hp hq
        rw [handles_handle, duplicateHandle_killed]
        exact ⟨hp, (some_ne_none _).symm⟩
      · rw [duplicateHandle_outcome] at hot
        exact ⟨exDuplicateHandle_failed ht hot, duplicateHandle_killed ..⟩

/-! ## `ExDuplicateHandleToHandle` -/

/-- The condition under which the duplication into a chosen handle is in order: a handle is refused,
    or the source has a pointer and, if the target's pointer gets destroyed, the source is another
    handle whose pointer can be duplicated. -/
def DuplicatesTo (t : HandleTable) (handle newHandle : Nat) (duplicate : Nat → Nat)
    (kill : Nat → Bool) : Prop :=
  (expCheckHandleCorrectness handle → expCheckHandleCorrectness newHandle →
    handleToIndex handle < t.capacity → handleToIndex newHandle < t.capacity →
    ∃ p, t.handles handle = some p ∧ ∀ q, t.handles newHandle = some q → kill q →
      newHandle ≠ handle ∧ duplicate p ≠ 0)

theorem duplicateHandleTo_right_iff (ht : t.Ok) (handle nh : Nat) (dup : Nat → Nat)
    (kill : Nat → Bool) :
    (t.duplicateHandleTo handle nh dup kill).Right t handle ↔ t.DuplicatesTo handle nh dup kill := by
  unfold DuplicatesTo
  by_cases hc : expCheckHandleCorrectness handle = true ∧
      expCheckHandleCorrectness nh = true ∧ handleToIndex handle < t.capacity ∧
      handleToIndex nh < t.capacity
  swap
  · have hsl : t.duplicateHandleTo handle nh dup kill = .silent (some (t, .error .invalidHandle)) := by
      unfold duplicateHandleTo
      split
      · rfl
      · next hcr =>
          rw [if_pos]
          by_contra hlt
          rw [Bool.or_eq_true, Bool.not_eq_true', Bool.not_eq_true', not_or,
            Bool.not_eq_false, Bool.not_eq_false] at hcr
          exact hc ⟨hcr.1, hcr.2, by omega, by omega⟩
    rw [hsl]
    exact iff_of_true (right_silent t handle) fun h1 h2 h3 h4 => absurd ⟨h1, h2, h3, h4⟩ hc
  · obtain ⟨h1, h2, h3, h4⟩ := hc
    obtain ⟨object, hgt⟩ := ht.entry_of_lt h3
    obtain ⟨old, hold⟩ := ht.entry_of_lt h4
    have hsr : t.handles handle = if object = 0 then none else some object := by
      rw [handles, if_pos h1, entry_of_getElem? hgt]
    have htr : t.handles nh = if old = 0 then none else some old := by
      rw [handles, if_pos h2, entry_of_getElem? hold]
    have hcl : t.duplicateHandleTo handle nh dup kill =
        if old ≠ 0 ∧ kill old = false then .silent (some (t, .error .deleteCanceled))
        else
          { outcome :=
              if dup object = 0 then some (t, .error .unsupportedFunction)
              else some (t.place (handleToIndex nh) (dup object), .ok 0)
            given := some object
            killed := if old = 0 then none else some nh } := by
      unfold duplicateHandleTo
      rw [h1, h2, if_neg (by decide), if_neg (by omega), hold, hgt]
    rw [hcl]
    by_cases hb : object = 0
    · -- no handle in the source slot
      rw [if_pos hb] at hsr
      refine iff_of_false (fun h => ?_) fun h => ?_
      · split at h
        · obtain ⟨t', hot⟩ := h.unoccupied hsr
          cases hot
        · have := (h.live object rfl).1
          rw [hsr] at this
          cases this
      · obtain ⟨p, hp, -⟩ := h h1 h2 h3 h4
        rw [hsr] at hp
        cases hp
    rw [if_neg hb] at hsr
    have hoc : t.handles handle ≠ none := hsr ▸ some_ne_none object
    split
    · next hrf =>
        -- the target's pointer is not destroyed, and nothing else is done
        refine iff_of_true ⟨fun p hp => ?_, fun hnn => absurd hnn hoc,
          fun t' status h => ?_⟩ fun _ _ _ _ => ⟨object, hsr, fun q hq hkl => ?_⟩
        · cases hp
        · cases h
          exact ⟨rfl, rfl⟩
        · rw [htr, if_neg hrf.1] at hq
          rw [← some.inj hq, hrf.2] at hkl
          cases hkl
    · next hrf =>
        by_cases hfr : old = 0
        · rw [if_pos hfr] at htr ⊢
          refine iff_of_true ⟨fun p hp => ?_, fun hnn => absurd hnn hoc,
            fun t' status h => ?_⟩ fun _ _ _ _ => ⟨object, hsr, fun q hq _ => ?_⟩
          · cases hp
            exact ⟨hsr, (some_ne_none _).symm⟩
          · simp only at h
            split at h
            · cases h
              exact ⟨rfl, rfl⟩
            · cases h
          · rw [htr] at hq
            cases hq
        · have hkl : kill old = true := by
            by_contra hno
            exact hrf ⟨hfr, by simpa using hno⟩
          rw [if_neg hfr] at htr ⊢
          constructor
          · intro h _ _ _ _
            refine ⟨object, hsr, fun q _ _ => ⟨fun heq => ?_, fun hnl => ?_⟩⟩
            · exact (h.live object rfl).2 (congrArg some heq)
            · exact some_ne_none _ (h.failed t .unsupportedFunction (if_pos hnl)).2
          · intro h
            obtain ⟨p, hp, hq⟩ := h h1 h2 h3 h4
            obtain ⟨hne, hcp⟩ := hq old htr hkl
            cases hsr.symm.trans hp
            refine ⟨fun q hgiven => ?_, fun hnn => absurd hnn hoc, fun t' status hot => ?_⟩
            · cases hgiven
              exact ⟨hsr, fun heq => hne (some.inj heq)⟩
            · simp only [if_neg hcp] at hot
              cases hot

/-! ## Both calls, on every table -/

/-- **A handle is duplicated safely, all or nothing, exactly when its slot holds one**; into a chosen
handle, exactly when besides a pointer that gets destroyed is another's, and for a source that can be
copied. -/
theorem handle_duplication_iff {initialSize growBy limit : Nat} {tableRoom mapRoom : Bool}
    {t₀ : HandleTable}
    (hcreate : exCreateHandleTable initialSize growBy limit tableRoom mapRoom = some (.ok t₀))
    (hrun : Reaches tableStep AnyCall t₀ t) (handle newHandle : Nat) (duplicate : Nat → Nat)
    (kill : Nat → Bool) (growRoom shrinkRoom : Bool) :
    ((t.duplicateHandle handle duplicate growRoom shrinkRoom).Right t handle ↔
      (expCheckHandleCorrectness handle → handleToIndex handle < t.capacity →
        t.handles handle ≠ none)) ∧
    ((t.duplicateHandleTo handle newHandle duplicate kill).Right t handle ↔
      t.DuplicatesTo handle newHandle duplicate kill) :=
  have ht := (sound_of_reaches hcreate hrun).toOk
  ⟨duplicateHandle_right_iff ht handle duplicate growRoom shrinkRoom,
    duplicateHandleTo_right_iff ht handle newHandle duplicate kill⟩

theorem reaches_one_handle : ∃ t₀, exCreateHandleTable 2 16 2048 true true = some (.ok t₀) ∧
    Reaches tableStep AnyCall t₀ ⟨2, 16, 2, 0, 2048, [7, 0]⟩ := by
  have hc : exCreateHandleTable 2 16 2048 true true = some (.ok ⟨2, 16, 2, 0, 2048, [0, 0]⟩) := by
    decide +kernel
  exact ⟨_, hc, .single (a := .call (.create 7 true)) trivial (by decide +kernel)⟩

/-- Its handle is duplicated as it should be, also into the second slot. -/
theorem handle_duplication_live :
    ((⟨2, 16, 2, 0, 2048, [7, 0]⟩ : HandleTable).duplicateHandle 4 id true true).Right
      ⟨2, 16, 2, 0, 2048, [7, 0]⟩ 4 ∧
    ((⟨2, 16, 2, 0, 2048, [7, 0]⟩ : HandleTable).duplicateHandleTo 4 8 id fun _ => true).Right
      ⟨2, 16, 2, 0, 2048, [7, 0]⟩ 4 := by
  obtain ⟨t₀, hc, hrn⟩ := reaches_one_handle
  have h := handle_duplication_iff hc hrn 4 8 id (fun _ => true) true true
  have hlv : (⟨2, 16, 2, 0, 2048, [7, 0]⟩ : HandleTable).handles 4 = some 7 := by decide
  refine ⟨h.1.2 fun _ _ => hlv ▸ some_ne_none 7, h.2.2 fun _ _ _ _ => ⟨7, hlv, ?_⟩⟩
  intro q hq
  have hfr : (⟨2, 16, 2, 0, 2048, [7, 0]⟩ : HandleTable).handles 8 = none := by decide
  rw [hfr] at hq
  cases hq

/-- The second slot is free: duplicating it hands the reservation to the method; duplicating the first
    handle into itself hands over a destroyed pointer, and one that cannot be copied into an occupied
    handle fails with that handle's pointer destroyed. -/
theorem duplicates_what_is_not_live : (∃ t₀, exCreateHandleTable 2 16 2048 true true = some (.ok t₀) ∧
      Reaches tableStep AnyCall t₀ ⟨2, 16, 2, 0, 2048, [7, 0]⟩) ∧
    ((⟨2, 16, 2, 0, 2048, [7, 0]⟩ : HandleTable).duplicateHandle 8 id true true).given = some 1 ∧
    ¬ ((⟨2, 16, 2, 0, 2048, [7, 0]⟩ : HandleTable).duplicateHandle 8 id true true).Right
      ⟨2, 16, 2, 0, 2048, [7, 0]⟩ 8 ∧
    ¬ ((⟨2, 16, 2, 0, 2048, [7, 0]⟩ : HandleTable).duplicateHandleTo 4 4 id fun _ => true).Right
      ⟨2, 16, 2, 0, 2048, [7, 0]⟩ 4 ∧
    ¬ ((⟨2, 16, 2, 1, 2048, [7, 9]⟩ : HandleTable).duplicateHandleTo 4 8 (fun _ => 0)
      fun _ => true).Right ⟨2, 16, 2, 1, 2048, [7, 9]⟩ 4 := by
  refine ⟨reaches_one_handle, by decide +kernel, fun h => ?_, fun h => ?_, fun h => ?_⟩
  · have hgiven : ((⟨2, 16, 2, 0, 2048, [7, 0]⟩ : HandleTable).duplicateHandle 8 id true true).given =
        some 1 := by decide +kernel
    exact absurd (h.live 1 hgiven).1 (by decide)
  · exact (h.live 7 (by decide)).2 (by decide)
  · exact absurd (h.failed ⟨2, 16, 2, 1, 2048, [7, 9]⟩ .unsupportedFunction rfl).2 (by decide)

end HandleTable

end Boron.Ex
