import Boron.Ex.HandleMap

/-! # Every handle table there can be

The operations of `ex/handtab.c` on a whole table and the duplication into a chosen handle, and what
all tables have in common that some sequence of operations makes. No operation is left out: one that
does not come back ends the run, every other one keeps `HandleTable.Sound` (`sound_of_reaches`). -/

namespace Boron.Ex

open Function Option

namespace HandleTable

/-! ## The operations -/

/-- `ExDuplicateHandleToHandle`. The pointer of the target handle is destroyed first. -/
def exDuplicateHandleToHandle (t : HandleTable) (handle newHandle : Nat) (duplicate : Nat → Nat)
    (kill : Nat → Bool) : Option (HandleTable × HandleStatus) :=
  if !expCheckHandleCorrectness handle || !expCheckHandleCorrectness newHandle then
    some (t, .invalidHandle)
  else if t.capacity ≤ handleToIndex handle ∨ t.capacity ≤ handleToIndex newHandle then
    some (t, .invalidHandle)
  else
    match t.handleMap[handleToIndex newHandle]?, t.handleMap[handleToIndex handle]? with
    | some old, some object =>
      if old ≠ 0 ∧ kill old = false then some (t, .deleteCanceled)
      else if duplicate object = 0 then some (t, .unsupportedFunction)
      else some (t.place (handleToIndex newHandle) (duplicate object), .success)
    | _, _ => none

/-- The loop of `ExKillHandleTable`: the slots, and whether every handle was deleted. -/
def killSlots (kill : Nat → Bool) : List Nat → List Nat × Bool
  | [] => ([], true)
  | object :: rest =>
    if object = 0 then
      let r := killSlots kill rest
      (0 :: r.1, r.2)
    else if kill object then
      let r := killSlots kill rest
      (0 :: r.1, r.2)
    else (object :: rest, false)

/-- `ExKillHandleTable`; the table is freed when all its handles are deleted. -/
def exKillHandleTable (t : HandleTable) (kill : Nat → Bool) : HandleTable × HandleStatus :=
  let r := killSlots kill t.handleMap
  ({ t with handleMap := r.1 }, if r.2 then .success else .deleteCanceled)

def exCreateHandleTableInherit (t : HandleTable) (tableRoom mapRoom : Bool) :
    Option (Except HandleStatus HandleTable) :=
  exCreateHandleTable t.initialSize t.growBy t.limit tableRoom mapRoom

/-- The loop of `ExDuplicateHandleTable`, from slot `i` on. -/
def duplicateLoop (t : HandleTable) (duplicate : Nat → Nat) :
    (rounds i : Nat) → HandleTable → Option HandleTable
  | 0, _, new => some new
  | rounds + 1, i, new =>
    match t.handleMap[i]? with
    | none => none
    | some object =>
      if object = 0 then t.duplicateLoop duplicate rounds (i + 1) new
      else if i < new.handleMap.length then
        t.duplicateLoop duplicate rounds (i + 1) { new with
          handleMap := new.handleMap.set i (duplicate object)
          maxIndex := if duplicate object = 0 then new.maxIndex else i }
      else none

/-- `ExDuplicateHandleTable`. It asserts that the new table has as many slots as the old one. -/
def exDuplicateHandleTable (t : HandleTable) (duplicate : Nat → Nat)
    (tableRoom mapRoom resizeRoom : Bool) : Option (Except HandleStatus HandleTable) :=
  match t.exCreateHandleTableInherit tableRoom mapRoom with
  | none => none
  | some (.error status) => some (.error status)
  | some (.ok new) =>
    match new.expResizeHandleTable t.capacity resizeRoom with
    | none => none
    | some (new, .success) =>
      if new.capacity = t.capacity then
        (t.duplicateLoop duplicate (t.maxIndex + 1) 0 new).map .ok
      else none
    | some (_, status) => some (.error status)

end HandleTable

/-- An operation on a handle table. -/
inductive TableCall
  | call (c : HandleCall)
  | duplicateTo (handle newHandle : Nat) (duplicate : Nat → Nat) (kill : Nat → Bool)
  | kill (kill : Nat → Bool)
  | duplicateTable (duplicate : Nat → Nat) (tableRoom mapRoom resizeRoom : Bool)

namespace HandleTable

/-- The table after an operation. After `ExDuplicateHandleTable` the run goes on with the new table;
    the old one is as it was. -/
def tableStep (t : HandleTable) : TableCall → Option HandleTable
  | .call c => t.step c
  | .duplicateTo handle newHandle duplicate kill =>
    (t.exDuplicateHandleToHandle handle newHandle duplicate kill).map (·.1)
  | .kill kill =>
    if (t.exKillHandleTable kill).2 = .success then none else some (t.exKillHandleTable kill).1
  | .duplicateTable duplicate tableRoom mapRoom resizeRoom =>
    (t.exDuplicateHandleTable duplicate tableRoom mapRoom resizeRoom).map fun
      | .ok new => new
      | .error _ => t

/-! ## What an operation that comes back has done -/

variable {t t' : HandleTable}

/-- The parameters a table was created with. -/
structure SameKind (t t' : HandleTable) : Prop where
  growBy : t'.growBy = t.growBy
  initialSize : t'.initialSize = t.initialSize
  limit : t'.limit = t.limit

theorem SameKind.refl (t : HandleTable) : t.SameKind t := ⟨rfl, rfl, rfl⟩

theorem SameKind.trans {t'' : HandleTable} (h : t.SameKind t') (h' : t'.SameKind t'') :
    t.SameKind t'' :=
  ⟨h'.growBy.trans h.growBy, h'.initialSize.trans h.initialSize, h'.limit.trans h.limit⟩

/-- The size a request is cut to. -/
def clamped (t : HandleTable) (n : Nat) : Nat := if t.limit < n ∧ 0 < t.limit then t.limit else n

variable {n : Nat} {room : Bool} {status : HandleStatus}

/-- `ExpResizeHandleTable`, if it comes back: it has changed nothing, appended free slots, or cut slots
    off. -/
theorem resize_cases (h : t.expResizeHandleTable n room = some (t', status)) :
    (t' = t ∧ (status = .success ∧ n = t.capacity ∨ status = .tooManyHandles ∨
      status = .insufficientMemory)) ∨
    status = .success ∧ t.clamped n < maxItems ∧
      (t.capacity < t.clamped n ∧ t' = { t with
          handleMap := t.handleMap.take t.capacity ++ List.replicate (t.clamped n - t.capacity) 0
          capacity := t.clamped n } ∨
        t' = { t with
          handleMap := t.handleMap.take (t.clamped n)
          capacity := t.clamped n }) := by
  simp only [expResizeHandleTable] at h
  have hc : (if t.limit < n ∧ 0 < t.limit then t.limit else n) = t.clamped n := rfl
  rw [hc] at h
  generalize t.clamped n = m at h ⊢
  split_ifs at h with hsm _ _ hft hlt
  · cases h
    exact .inl ⟨rfl, .inl ⟨rfl, hsm⟩⟩
  · cases h
    exact .inl ⟨rfl, .inr (.inl rfl)⟩
  · cases h
    exact .inl ⟨rfl, .inr (.inr rfl)⟩
  · cases h
    exact .inr ⟨rfl, lt_maxItems_of_blockItems hft, .inl ⟨hlt, rfl⟩⟩
  · cases h
    exact .inr ⟨rfl, lt_maxItems_of_blockItems hft, .inr rfl⟩

/-- A request for fewer slots than the pool can be asked for comes back. -/
theorem resize_ne_none (hn : n < maxItems) (room : Bool) : t.expResizeHandleTable n room ≠ none := by
  have hc : t.clamped n < maxItems := by
    unfold clamped
    split <;> omega
  have hft : ¬ blockItems (t.clamped n) < t.clamped n := by
    rw [blockItems_of_lt hc]
    exact Nat.lt_irrefl _
  simp only [expResizeHandleTable]
  have heq : (if t.limit < n ∧ 0 < t.limit then t.limit else n) = t.clamped n := rfl
  rw [heq, if_neg hft]
  split_ifs <;> exact some_ne_none _

theorem clamped_le_limit (t : HandleTable) (n : Nat) : t.limit = 0 ∨ t.clamped n ≤ t.limit := by
  unfold clamped
  split <;> omega

theorem sameKind_expResizeHandleTable
    (h : t.expResizeHandleTable n room = some (t', status)) : t.SameKind t' := by
  obtain ⟨rfl, -⟩ | ⟨-, -, ⟨-, rfl⟩ | rfl⟩ := resize_cases h
  · exact .refl _
  · exact ⟨rfl, rfl, rfl⟩
  · exact ⟨rfl, rfl, rfl⟩

theorem resize_longer (ht : t.Ok) (h : t.expResizeHandleTable n room = some (t', status))
    (hln : t.capacity < t'.handleMap.length) : t.Grown t' := by
  have hlength := ht.length
  obtain ⟨rfl, -⟩ | ⟨-, hsize, ⟨hlt, rfl⟩ | rfl⟩ := resize_cases h
  · omega
  · exact grown_append ht hlt hsize (t.clamped_le_limit n)
  · have hc : (t.handleMap.take (t.clamped n)).length ≤ t.handleMap.length :=
      List.length_take_le' ..
    exact absurd (Nat.lt_of_lt_of_le hln hc) (by omega)

variable {p : Nat} {r : Except HandleStatus Nat}

/-- `ExpCreateHandle`, if it comes back: it has failed and changed nothing, or put the pointer into a
    free slot. -/
theorem expCreateHandle_cases (ht : t.Ok) (hp : p ≠ 0) (h : t.expCreateHandle p room = some (t', r)) :
    (t' = t ∧ (r = .error .tooManyHandles ∨ r = .error .insufficientMemory)) ∨
      ∃ i, r = .ok i ∧ t.Placed i p t' ∧ t.SameKind t' := by
  unfold expCreateHandle at h
  cases hfr : t.freeIndex with
  | some i =>
    rw [hfr] at h
    cases h
    obtain ⟨hi, hnn⟩ := freeIndex_spec ht hfr
    exact .inr ⟨i, rfl, placed_place ht hp hi hnn, ⟨rfl, rfl, rfl⟩⟩
  | none =>
    rw [hfr] at h
    simp only at h
    split at h
    · cases h
      exact .inl ⟨rfl, .inl rfl⟩
    · split at h
      · cases h
      · next t₁ hrs =>
          split at h
          · next hln =>
              cases h
              right
              have hgr := resize_longer ht hrs hln
              have hnn : t₁.entry t.capacity = none := by
                rw [hgr.entry]
                exact entry_of_length_le (Nat.le_of_eq ht.length)
              have hpl := placed_place hgr.ok hp hgr.capacity hnn
              refine ⟨t.capacity, rfl, ⟨hpl.ok, hgr.entry ▸ hnn, ?_, ?_,
                hgr.growBy, hgr.limit⟩, (sameKind_expResizeHandleTable hrs).trans
                ⟨rfl, rfl, rfl⟩⟩
              · rw [hpl.entry, hgr.entry]
              · rw [hpl.maxIndex, hgr.maxIndex]
          · cases h
      · next t₁ status hne hrs =>
          cases h
          obtain ⟨rfl, ⟨rfl, -⟩ | rfl | rfl⟩ | ⟨rfl, -⟩ := resize_cases hrs
          · exact (hne rfl).elim
          · exact .inl ⟨rfl, .inl rfl⟩
          · exact .inl ⟨rfl, .inr rfl⟩
          · exact (hne rfl).elim

theorem sameKind_shrink (h : t.shrink room = some t') : t.SameKind t' := by
  simp only [shrink] at h
  split at h
  · cases h
  · split at h
    · cases h
      exact ⟨rfl, rfl, rfl⟩
    · obtain ⟨r, hrs, rfl⟩ := map_eq_some_iff.1 h
      have hkn := sameKind_expResizeHandleTable hrs
      exact ⟨hkn.growBy, hkn.initialSize, hkn.limit⟩

variable {i : Nat}

theorem expDeleteHandle_cases (ht : t.Ok) (hi : t.entry i = some p)
    (h : t.expDeleteHandle i room = some t') :
    t.Changed (update t.entry i none) t' ∧ t.SameKind t' := by
  have hrt : t.maxIndex = i → 0 < t.growBy := by
    rintro rfl
    by_contra hgr
    rw [expDeleteHandle_of_growBy_zero ht hi (by omega) room] at h
    cases h
  obtain ⟨t₁, hdl, hc, -⟩ := expDeleteHandle_spec ht hi hrt room
  cases hdl.symm.trans h
  refine ⟨hc, ?_⟩
  unfold expDeleteHandle at h
  split at h
  · simp only at h
    split at h
    · have hkn := sameKind_shrink h
      exact ⟨hkn.growBy, hkn.initialSize, hkn.limit⟩
    · cases h
      exact ⟨rfl, rfl, rfl⟩
  · cases h

/-! ## What every table has in common -/

/-- The invariant of every table: its size is in order, and was created within its limit. -/
structure Sound (t : HandleTable) : Prop extends t.Ok where
  initialSize_le_limit : t.initialSize ≤ t.limit

theorem Sound.of_ok (ht : t.Sound) (hok : t'.Ok) (hkn : t.SameKind t') : t'.Sound :=
  ⟨hok, by rw [hkn.initialSize, hkn.limit]; exact ht.initialSize_le_limit⟩

theorem Ok.entry_of_lt (ht : t.Ok) (hi : i < t.capacity) : ∃ obj, t.handleMap[i]? = some obj :=
  ⟨_, List.getElem?_eq_getElem (ht.length ▸ hi)⟩

variable {kill : Nat → Bool}

variable {h : Nat}

theorem sound_exDeleteHandle (ht : t.Sound) (hdl : t.exDeleteHandle h kill room = some (t', status)) :
    t'.Sound ∧ t'.maxIndex ≤ t.maxIndex ∧ (0 < t.capacity → 0 < t'.capacity) := by
  unfold exDeleteHandle at hdl
  split at hdl
  · cases hdl
    exact ⟨ht, Nat.le_refl _, id⟩
  · split at hdl
    · cases hdl
      exact ⟨ht, Nat.le_refl _, id⟩
    · split at hdl
      · cases hdl
      · next obj hgt =>
          split at hdl
          · cases hdl
            exact ⟨ht, Nat.le_refl _, id⟩
          · next hb =>
              split at hdl
              · cases hdl
                exact ⟨ht, Nat.le_refl _, id⟩
              · obtain ⟨t₁, he, heq⟩ := map_eq_some_iff.1 hdl
                cases heq
                obtain ⟨hc, hkn⟩ :=
                  expDeleteHandle_cases ht.toOk (entry_eq_some.2 ⟨hgt, hb⟩) he
                exact ⟨ht.of_ok hc.ok hkn, hc.maxIndex, hc.pos⟩

variable {duplicate : Nat → Nat}

theorem sound_exDuplicateHandle (ht : t.Sound) {gr sr : Bool}
    (hdp : t.exDuplicateHandle h duplicate gr sr = some (t', r)) : t'.Sound := by
  unfold exDuplicateHandle at hdp
  split at hdp
  · cases hdp
    exact ht
  · split at hdp
    · cases hdp
      exact ht
    · split at hdp
      · cases hdp
      · next hc =>
          cases hdp
          obtain ⟨rfl, -⟩ | ⟨i, hr, -⟩ := expCreateHandle_cases ht.toOk Nat.one_ne_zero hc
          · exact ht
          · cases hr
      · next t₁ i hc =>
          obtain ⟨-, hr | hr⟩ | ⟨j, hj, hp, hkn⟩ :=
            expCreateHandle_cases ht.toOk Nat.one_ne_zero hc
          · cases hr
          · cases hr
          · cases hj
            have hrs : t₁.entry i = some 1 := by rw [hp.entry, update_self]
            split at hdp
            · cases hdp
            · split at hdp
              · obtain ⟨t₂, he, heq⟩ := map_eq_some_iff.1 hdp
                cases heq
                obtain ⟨hh, hkn'⟩ := expDeleteHandle_cases hp.ok hrs he
                exact ht.of_ok hh.ok (hkn.trans hkn')
              · next obj _ hnl =>
                  cases hdp
                  refine ht.of_ok ⟨?_, hp.ok.size, hp.ok.initial, hp.ok.limit,
                    hp.ok.max, fun k hk => ?_⟩ (hkn.trans ⟨rfl, rfl, rfl⟩)
                  · rw [List.length_set]
                    exact hp.ok.length
                  · refine hp.ok.top k ?_
                    rw [entry_set (lt_of_entry hrs) rfl, if_neg hnl] at hk
                    by_cases hki : k = i
                    · rw [hki, hrs]
                      rfl
                    · rwa [update_of_ne hki] at hk

theorem sound_filterLoop {fil : Nat → Bool} {room : Nat → Bool} {fuel : Nat}
    (ht : t.Sound) (h : filterLoop fil kill room fuel t i = some t') : t'.Sound := by
  induction fuel generalizing t i with
  | zero =>
    cases h
    exact ht
  | succ fuel ih =>
    rw [filterLoop] at h
    split at h
    · split at h
      · cases h
      · split at h
        · exact ih ht h
        · split at h
          · split at h
            · cases h
            · next hdl => exact ih (sound_exDeleteHandle ht hdl).1 h
          · exact ih ht h
    · cases h
      exact ht

theorem sound_step (ht : t.Sound) {c : HandleCall} (h : t.step c = some t') : t'.Sound := by
  obtain ⟨⟨t₁, r⟩, hcl, rfl⟩ := map_eq_some_iff.1 h
  cases c with
  | create p room =>
    simp only [call, exCreateHandle] at hcl
    split at hcl
    · cases hcl
      exact ht
    · next hp =>
        obtain ⟨r', hc, heq⟩ := map_eq_some_iff.1 hcl
        cases heq
        obtain ⟨hsm, -⟩ | ⟨i, -, hpl, hkn⟩ := expCreateHandle_cases ht.toOk hp hc
        · exact hsm ▸ ht
        · exact ht.of_ok hpl.ok hkn
  | get handle =>
    obtain ⟨r', -, heq⟩ := map_eq_some_iff.1 hcl
    cases heq
    exact ht
  | delete handle kill room =>
    obtain ⟨⟨t₂, status⟩, hdl, heq⟩ := map_eq_some_iff.1 hcl
    cases heq
    exact (sound_exDeleteHandle ht hdl).1
  | duplicate handle duplicate gr sr => exact sound_exDuplicateHandle ht hcl
  | filter filter kill room =>
    obtain ⟨t₂, hlp, heq⟩ := map_eq_some_iff.1 hcl
    cases heq
    exact sound_filterLoop ht hlp

theorem sound_exDuplicateHandleToHandle (ht : t.Sound) {handle nh : Nat}
    (h : t.exDuplicateHandleToHandle handle nh duplicate kill = some (t', status)) :
    t'.Sound := by
  unfold exDuplicateHandleToHandle at h
  split at h
  · cases h
    exact ht
  · split at h
    · cases h
      exact ht
    · next hb =>
        split at h
        · split at h
          · cases h
            exact ht
          · split at h
            · cases h
              exact ht
            · next hnl =>
                cases h
                refine ht.of_ok (ok_place ht.toOk hnl ?_) ⟨rfl, rfl, rfl⟩
                omega
        · cases h

/-- What `ExKillHandleTable` has not deleted is where it was. -/
theorem killSlots_spec (kill : Nat → Bool) (slots : List Nat) :
    (killSlots kill slots).1.length = slots.length ∧
      ∀ i p : Nat, (killSlots kill slots).1[i]? = some p → p = 0 ∨ slots[i]? = some p := by
  induction slots with
  | nil => exact ⟨rfl, fun i p h => .inr h⟩
  | cons obj rest ih =>
    have hnext : (0 :: (killSlots kill rest).1).length = (obj :: rest).length ∧
        ∀ i p : Nat, (0 :: (killSlots kill rest).1)[i]? = some p →
          p = 0 ∨ (obj :: rest)[i]? = some p := by
      refine ⟨congrArg Nat.succ ih.1, fun i p h => ?_⟩
      cases i with
      | zero => exact .inl (some.inj h).symm
      | succ i => exact ih.2 i p h
    simp only [killSlots]
    split
    · exact hnext
    · split
      · exact hnext
      · exact ⟨rfl, fun i p h => .inr h⟩

theorem sound_exKillHandleTable (ht : t.Sound) (kill : Nat → Bool) :
    (t.exKillHandleTable kill).1.Sound := by
  obtain ⟨hlength, hsl⟩ := killSlots_spec kill t.handleMap
  refine ht.of_ok ⟨hlength.trans ht.length, ht.size, ht.initial, ht.limit, ht.max, fun i hi => ?_⟩
    ⟨rfl, rfl, rfl⟩
  obtain ⟨p, hp⟩ := isSome_iff_exists.1 hi
  obtain ⟨hgt, hne⟩ := entry_eq_some.1 hp
  obtain hz | hold := hsl i p hgt
  · exact absurd hz hne
  · refine ht.top i ?_
    rw [entry_eq_some.2 ⟨hold, hne⟩]
    rfl

/-! ## Duplicating a table -/

variable {new : HandleTable}

/-- Put a pointer, or none, into a slot above all that are in use. -/
theorem Ok.setSlot (hw : new.Ok) {y : Nat} (hi : i < new.capacity)
    (hx : new.maxIndex ≤ i) : ({ new with
      handleMap := new.handleMap.set i y
      maxIndex := if y = 0 then new.maxIndex else i } : HandleTable).Ok := by
  have hil : i < new.handleMap.length := hw.length ▸ hi
  refine ⟨by rw [List.length_set]; exact hw.length, hw.size, hw.initial, hw.limit, .inl ?_, fun j hj => ?_⟩
  · simp only
    split <;> omega
  · rw [entry_set hil rfl] at hj
    by_cases hji : j = i
    · subst hji
      rw [update_self] at hj
      simp only
      split at hj
      · cases hj
      · next hnl => exact Nat.le_of_eq (if_neg hnl).symm
    · rw [update_of_ne hji] at hj
      have := hw.top j hj
      simp only
      split <;> omega

/-- The loop goes on with a table in order, whose highest handle is below the slot it looks at. -/
theorem duplicateLoop_spec (ht : t.Ok) (hpos : 0 < t.capacity) (duplicate : Nat → Nat)
    {rou : Nat} (hw : new.Ok) (hc : new.capacity = t.capacity)
    (hx : new.maxIndex ≤ i) (hrn : i + rou ≤ t.maxIndex + 1) :
    ∃ new', t.duplicateLoop duplicate rou i new = some new' ∧ new'.Ok ∧ new.SameKind new' := by
  induction rou generalizing i new with
  | zero => exact ⟨new, rfl, hw, .refl new⟩
  | succ rou ih =>
    have hi : i < t.capacity := by
      have := ht.max
      omega
    obtain ⟨obj, hgt⟩ := ht.entry_of_lt hi
    simp only [duplicateLoop, hgt]
    split
    · exact ih hw hc (by omega) (by omega)
    · have hil : i < new.handleMap.length := by
        rw [hw.length, hc]
        exact hi
      rw [if_pos hil]
      have hok := hw.setSlot (y := duplicate obj) (hc ▸ hi) hx
      have hx' : (if duplicate obj = 0 then new.maxIndex else i) ≤ i + 1 := by
        split <;> omega
      obtain ⟨new', hp, hok', hkn⟩ := ih hok hc hx' (by omega)
      exact ⟨new', hp, hok', hkn.growBy, hkn.initialSize, hkn.limit⟩

variable {tableRoom mapRoom : Bool}

variable {rr : Bool}

theorem inherit_resized (ht : t.Sound) {new' : HandleTable} (hc : t.exCreateHandleTableInherit tableRoom mapRoom = some (.ok new))
    (hrs : new.expResizeHandleTable t.capacity rr = some (new', status)) :
    status ≠ .success ∨ new'.Ok ∧ new'.capacity = t.capacity ∧ new'.maxIndex = 0 ∧ t.SameKind new' := by
  have hlm := ht.initialSize_le_limit
  have hin := ht.initial
  have hcl := ht.limit
  have hok := (ok_exCreateHandleTable hc).1
  have hw : new.capacity = t.initialSize ∧ new.maxIndex = 0 ∧ t.SameKind new := by
    unfold exCreateHandleTableInherit exCreateHandleTable at hc
    rw [if_neg (by omega : ¬ t.limit < t.initialSize), if_neg (by omega : ¬ t.limit < t.initialSize)]
      at hc
    split_ifs at hc with _ hz
    · cases hc
    · cases hc
      exact ⟨hz.symm, rfl, ⟨rfl, hz.symm, rfl⟩⟩
    · cases hc
    · cases hc
      exact ⟨rfl, rfl, ⟨rfl, rfl, rfl⟩⟩
  obtain ⟨hp, hx, hkn⟩ := hw
  by_cases hst : status = .success
  swap
  · exact .inl hst
  · subst hst
    right
    by_cases hsm : t.capacity = new.capacity
    · rw [expResizeHandleTable, if_pos hsm] at hrs
      cases hrs
      exact ⟨hok, hsm.symm, hx, hkn⟩
    · have hnt : ¬ (new.limit < t.capacity ∧ 0 < new.limit) := by
        rw [hkn.limit]
        omega
      unfold expResizeHandleTable at hrs
      rw [if_neg hsm, if_neg (fun h => hnt ⟨h.1, h.2.1⟩)] at hrs
      simp only [if_neg hnt] at hrs
      have hlt : new.capacity < t.capacity := by omega
      split_ifs at hrs with hrm hft
      · cases hrs
      · obtain rfl := (Prod.mk.inj (some.inj hrs)).1
        have hgr := grown_append hok hlt ht.size (by rw [hkn.limit]; omega)
        exact ⟨hgr.ok, rfl, hx, hkn.trans ⟨rfl, rfl, rfl⟩⟩

theorem sound_exDuplicateHandleTable (ht : t.Sound)
    (h : t.exDuplicateHandleTable duplicate tableRoom mapRoom rr = some (.ok new)) :
    new.Sound := by
  unfold exDuplicateHandleTable at h
  split at h
  · cases h
  · cases h
  · next hcr =>
      split at h
      · cases h
      · next hrs =>
          obtain hne | ⟨hok, hc, hx, hkn⟩ := inherit_resized ht hcr hrs
          · exact absurd rfl hne
          · rw [if_pos hc] at h
            obtain ⟨new', hp, heq⟩ := map_eq_some_iff.1 h
            cases heq
            by_cases hpos : 0 < t.capacity
            · obtain ⟨new'', hp', hok', hkn'⟩ := duplicateLoop_spec ht.toOk hpos duplicate
                hok hc (Nat.le_of_eq hx) (show 0 + (t.maxIndex + 1) ≤ t.maxIndex + 1 by omega)
              cases hp'.symm.trans hp
              exact ht.of_ok hok' (hkn.trans hkn')
            · -- a table without slots: the first round touches memory outside it
              have hnn : t.handleMap[0]? = none :=
                List.getElem?_eq_none (by rw [ht.length]; omega)
              rw [duplicateLoop, hnn] at hp
              cases hp
      · cases h

/-! ## Every run -/

theorem sound_tableStep (ht : t.Sound) {c : TableCall} (h : t.tableStep c = some t') : t'.Sound := by
  cases c with
  | call c => exact sound_step ht h
  | duplicateTo handle nh duplicate kill =>
    obtain ⟨⟨t₁, status⟩, hp, rfl⟩ := map_eq_some_iff.1 h
    exact sound_exDuplicateHandleToHandle ht hp
  | kill kill =>
    simp only [tableStep] at h
    split at h
    · cases h
    · cases h
      exact sound_exKillHandleTable ht kill
  | duplicateTable duplicate tableRoom mapRoom rr =>
    obtain ⟨r, hp, hr⟩ := map_eq_some_iff.1 h
    cases r with
    | ok new =>
      obtain rfl : new = t' := hr
      exact sound_exDuplicateHandleTable ht hp
    | error status =>
      obtain rfl : t = t' := hr
      exact ht

variable {limit : Nat}

theorem sound_exCreateHandleTable {initialSize growBy : Nat}
    (h : exCreateHandleTable initialSize growBy limit tableRoom mapRoom = some (.ok t)) :
    t.Sound := by
  obtain ⟨hok, -, hlm⟩ := ok_exCreateHandleTable h
  refine ⟨hok, ?_⟩
  have hin : t.initialSize = initialSize := by
    unfold exCreateHandleTable at h
    split_ifs at h with _ hlt hz _ _ hz
    all_goals cases h
    all_goals first | rfl | exact hz.symm
  rw [hin, hlm]
  split <;> omega

/-- Every operation is allowed. -/
def AnyCall (_ : HandleTable) (_ : TableCall) : Prop := True

theorem sound_of_reaches {is gb : Nat} {t₀ : HandleTable}
    (hc : exCreateHandleTable is gb limit tableRoom mapRoom = some (.ok t₀))
    (hrn : Reaches tableStep AnyCall t₀ t) : t.Sound :=
  hrn.invariant (I := Sound) (sound_exCreateHandleTable hc) fun _ _ _ hs _ h =>
    sound_tableStep hs h

end HandleTable

end Boron.Ex
