import Boron.Ex.HandleTables

/-! # Deleting handles, and the loops up to `MaxIndex`

`ExpDeleteHandle` bites `GrowBy` slots off its table as long as it can, which for a table that cannot
grow is for ever. `ExFilterHandleTable` and `ExDuplicateHandleTable` look at the slots up to and
including `MaxIndex`, of which a table without slots has none. -/

namespace Boron.Ex

open Option

namespace HandleTable

variable {t t' : HandleTable}

/-! ## What should hold -/

/-- The table `ExpDeleteHandle` runs its shrink loop on, once it has emptied the topmost slot. -/
def emptied (t : HandleTable) : HandleTable :=
  { t with
    handleMap := t.handleMap.set t.maxIndex 0
    maxIndex := lowerMax (t.handleMap.set t.maxIndex 0) t.maxIndex }

/-- The shrink loop ends, with room for the slots in use, for the initial ones, and for one. -/
def ShrinkEnds (t : HandleTable) : Prop :=
  ∃ rounds n, t.emptied.shrunkCapacity rounds t.capacity = some n ∧
    max t.initialSize (t.emptied.maxIndex + 1) ≤ n ∧ 1 ≤ n

/-- The slots the loop of `ExFilterHandleTable` looks at, each with the capacity of the table at that
    time. -/
def filterReads (filter kill : Nat → Bool) (room : Nat → Bool) :
    (rounds : Nat) → HandleTable → Nat → List (Nat × Nat)
  | 0, _, _ => []
  | rounds + 1, t, i =>
    if i ≤ t.maxIndex then
      (i, t.capacity) ::
        match t.handleMap[i]? with
        | none => []
        | some object =>
          if object = 0 then filterReads filter kill room rounds t (i + 1)
          else if filter object then
            match t.exDeleteHandle (indexToHandle i) kill (room i) with
            | none => []
            | some (t, _) => filterReads filter kill room rounds t (i + 1)
          else filterReads filter kill room rounds t (i + 1)
    else []

/-- Deleting and the two loops as they should be. `ExpDeleteHandle` runs its shrink loop when the slot
    it empties is the topmost; the slot that `ExDuplicateHandle` gives up again is one that a handle
    with the pointer `0x1` would have been created in. Duplicating the table comes back, so it has not
    touched memory outside an array. -/
structure DeletesRight (t : HandleTable) : Prop where
  shrink : ∀ p, t.entry t.maxIndex = some p → t.ShrinkEnds
  filter : ∀ (filter kill room : Nat → Bool) (rounds : Nat),
    ∀ r ∈ filterReads filter kill room rounds t 0, r.1 < r.2
  duplicateTable : ∀ (duplicate : Nat → Nat) (tableRoom mapRoom resizeRoom : Bool),
    t.exDuplicateHandleTable duplicate tableRoom mapRoom resizeRoom ≠ none

/-! ## The shrink loop -/

theorem Ok.emptied_maxIndex (ht : t.Ok) {p : Nat} (hp : t.entry t.maxIndex = some p) :
    t.emptied.maxIndex < t.capacity := by
  have hln := lt_of_entry hp
  obtain ⟨hle, -⟩ := lowerMax_spec (t := { t with handleMap := t.handleMap.set t.maxIndex 0 })
    t.maxIndex (fun i hi => by
      rw [entry_set hln rfl, Function.update_of_ne (by omega), ht.free hi])
  exact Nat.lt_of_le_of_lt hle (ht.length ▸ hln)

theorem shrinkEnds_iff (ht : t.Ok) {p : Nat} (hp : t.entry t.maxIndex = some p) :
    t.ShrinkEnds ↔ 0 < t.growBy := by
  have hx := ht.emptied_maxIndex hp
  have hw : maxItems < wordSize := by decide
  have hsize := ht.size
  constructor
  · rintro ⟨rou, n, hn, -⟩
    by_contra hgr
    have hlp := shrunkCapacity_of_growBy_zero (t := t.emptied) (by simpa [emptied] using hgr)
      (Nat.lt_trans hsize hw) hx ht.initial rou
    rw [hlp] at hn
    cases hn
  · intro hgr
    obtain ⟨n, hn, -, hmn, hin⟩ := shrunkCapacity_spec (t := t.emptied) hgr
      (Nat.lt_succ_self t.capacity) hsize hx ht.initial
    refine ⟨t.capacity + 1, n, hn, ?_, by omega⟩
    exact Nat.max_le.2 ⟨hin, hmn⟩

/-! ## The loops up to `MaxIndex` -/

theorem maxIndex_lt (ht : t.Ok) (hpos : 0 < t.capacity) : t.maxIndex < t.capacity := by
  have := ht.max
  omega

theorem filterReads_lt (ht : t.Sound) (hpos : 0 < t.capacity) (fil kill room : Nat → Bool)
    (rou i : Nat) : ∀ r ∈ filterReads fil kill room rou t i, r.1 < r.2 := by
  induction rou generalizing t i with
  | zero =>
    intro r hr
    cases hr
  | succ rou ih =>
    rw [filterReads]
    split
    · next hi =>
        have hb := maxIndex_lt ht.toOk hpos
        refine List.forall_mem_cons.2 ⟨Nat.lt_of_le_of_lt hi hb, ?_⟩
        split
        · exact fun r hr => nomatch hr
        · split
          · exact ih ht hpos (i + 1)
          · split
            · split
              · exact fun r hr => nomatch hr
              · next hdl =>
                  -- the next rounds see the table as the deletion leaves it
                  obtain ⟨hsn, -, hpos'⟩ := sound_exDeleteHandle ht hdl
                  exact ih hsn (hpos' hpos) (i + 1)
            · exact ih ht hpos (i + 1)
    · exact fun r hr => nomatch hr

theorem filterReads_of_empty (hz : t.capacity = 0) (fil kill room : Nat → Bool) :
    (0, 0) ∈ filterReads fil kill room 1 t 0 := by
  rw [filterReads, if_pos (Nat.zero_le _), hz]
  exact List.mem_cons_self ..

theorem exDuplicateHandleTable_ne_none (ht : t.Sound) (hpos : 0 < t.capacity)
    (dup : Nat → Nat) (tr mr rr : Bool) :
    t.exDuplicateHandleTable dup tr mr rr ≠ none := by
  have hin := ht.initial
  have hsize := ht.size
  unfold exDuplicateHandleTable
  cases hc : t.exCreateHandleTableInherit tr mr with
  | none =>
    unfold exCreateHandleTableInherit exCreateHandleTable at hc
    have hft : ¬ blockItems t.initialSize < t.initialSize := by
      rw [blockItems_of_lt (by omega)]
      exact Nat.lt_irrefl _
    split_ifs at hc
  | some r =>
    cases r with
    | error st => exact some_ne_none _
    | ok new =>
      simp only
      cases hrs : new.expResizeHandleTable t.capacity rr with
      | none => exact absurd hrs (resize_ne_none hsize rr)
      | some r =>
        obtain ⟨new', st⟩ := r
        cases st with
        | success =>
          obtain hne | ⟨hok, hp, hx, -⟩ := inherit_resized ht hc hrs
          · exact absurd rfl hne
          · obtain ⟨new'', hlp, -⟩ := duplicateLoop_spec ht.toOk hpos dup hok hp (Nat.le_of_eq hx)
              (show 0 + (t.maxIndex + 1) ≤ t.maxIndex + 1 by omega)
            simp only
            rw [if_pos hp, hlp]
            exact some_ne_none _
        | _ => exact some_ne_none _

theorem deletesRight_iff (ht : t.Sound) :
    t.DeletesRight ↔ (t.growBy ≠ 0 ∨ t.entry t.maxIndex = none) ∧ t.capacity ≠ 0 := by
  constructor
  · intro h
    refine ⟨?_, fun hz => ?_⟩
    · cases hp : t.entry t.maxIndex with
      | none => exact .inr rfl
      | some p =>
        have := (shrinkEnds_iff ht.toOk hp).1 (h.shrink p hp)
        exact .inl (by omega)
    · have hread := h.filter (fun _ => true) (fun _ => true) (fun _ => true) 1 (0, 0)
        (filterReads_of_empty hz ..)
      exact Nat.lt_irrefl 0 hread
  · rintro ⟨hgr, hc⟩
    have hpos : 0 < t.capacity := Nat.pos_of_ne_zero hc
    refine ⟨fun p hp => (shrinkEnds_iff ht.toOk hp).2 ?_,
      fun fil kill room rou => filterReads_lt ht hpos fil kill room rou 0,
      exDuplicateHandleTable_ne_none ht hpos⟩
    obtain hgr | hnn := hgr
    · omega
    · rw [hp] at hnn
      cases hnn

/-- **Deleting handles ends, and the loops up to `MaxIndex` stay inside the table, exactly when the
table can grow, or has nothing in its topmost slot, and has a slot at all**: for every table that some
sequence of operations makes. -/
theorem handle_deletion_iff {initialSize growBy limit : Nat} {tableRoom mapRoom : Bool}
    {t₀ : HandleTable}
    (hcreate : exCreateHandleTable initialSize growBy limit tableRoom mapRoom = some (.ok t₀))
    (hrun : Reaches tableStep AnyCall t₀ t) :
    t.DeletesRight ↔ (t.growBy ≠ 0 ∨ t.entry t.maxIndex = none) ∧ t.capacity ≠ 0 :=
  deletesRight_iff (sound_of_reaches hcreate hrun)

/-- A table of the kind every process gets, with one handle: all is well. -/
theorem handle_deletion_growable :
    ∃ t₀ t : HandleTable, exCreateHandleTable 1 16 2048 true true = some (.ok t₀) ∧
      Reaches tableStep AnyCall t₀ t ∧ t.handles 4 = some 7 ∧ t.DeletesRight := by
  have hc : exCreateHandleTable 1 16 2048 true true = some (.ok ⟨1, 16, 1, 0, 2048, [0]⟩) := by
    decide +kernel
  have hrn : Reaches tableStep AnyCall ⟨1, 16, 1, 0, 2048, [0]⟩ ⟨1, 16, 1, 0, 2048, [7]⟩ :=
    .single (a := .call (.create 7 true)) trivial (by decide +kernel)
  refine ⟨_, _, hc, hrn, by decide, ?_⟩
  exact (handle_deletion_iff hc hrn).2 ⟨.inl (by decide), by decide⟩

/-- The only handle of a table of fixed size is never deleted, and a table without slots is read at
    slot `0`. -/
theorem fixed_table_never_deletes :
    (∃ t₀ t : HandleTable, exCreateHandleTable 1 0 1 true true = some (.ok t₀) ∧
      Reaches tableStep AnyCall t₀ t ∧ t.entry t.maxIndex = some 7 ∧ ¬ t.ShrinkEnds) ∧
    ∃ t : HandleTable, exCreateHandleTable 0 16 2048 true true = some (.ok t) ∧
      (0, 0) ∈ filterReads (fun _ => true) (fun _ => true) (fun _ => true) 1 t 0 ∧
      t.exDuplicateHandleTable id true true true = none := by
  constructor
  · have hc : exCreateHandleTable 1 0 1 true true = some (.ok ⟨1, 0, 1, 0, 1, [0]⟩) := by
      decide +kernel
    have hrn : Reaches tableStep AnyCall ⟨1, 0, 1, 0, 1, [0]⟩ ⟨1, 0, 1, 0, 1, [7]⟩ :=
      .single (a := .call (.create 7 true)) trivial (by decide +kernel)
    have hp : (⟨1, 0, 1, 0, 1, [7]⟩ : HandleTable).entry 0 = some 7 := rfl
    refine ⟨_, _, hc, hrn, hp, fun h => ?_⟩
    have := (shrinkEnds_iff (sound_of_reaches hc hrn).toOk hp).1 h
    exact Nat.lt_irrefl 0 this
  · exact ⟨_, rfl, filterReads_of_empty rfl .., rfl⟩

end HandleTable

end Boron.Ex
