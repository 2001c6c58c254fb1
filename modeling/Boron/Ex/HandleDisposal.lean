import Boron.Ex.HandleTables
import Mathlib.Data.List.Nodup

/-! # Getting rid of handle tables

`ExDeleteHandleTable` is for empty tables, `ExKillHandleTable` empties the table first, and
`ExDuplicateHandleTable` has to delete the new table when it cannot be made large enough. Here the
lock of a table is part of the state, and a table that was freed is no longer there.

`ExDeleteHandleTable` has its test the wrong way around, so the third cannot delete its empty table,
and a killing that is cancelled keeps the lock (`handle_disposal_iff`). -/

namespace Boron.Ex

open List

/-- A table that has not been freed, with its mutex. -/
structure StoredTable where
  table : HandleTable
  locked : Bool
  deriving DecidableEq

def StoredTable.lock (s : StoredTable) : StoredTable := { s with locked := true }

def StoredTable.unlock (s : StoredTable) : StoredTable := { s with locked := false }

/-- `STATUS_TABLE_NOT_EMPTY`, or a status that other functions return as well. -/
inductive DisposalStatus
  | tableNotEmpty
  | status (status : HandleStatus)
  deriving DecidableEq

namespace HandleTable

/-! ## The operations -/

def exIsEmptyHandleTable (t : HandleTable) : Bool := (t.handleMap.take t.capacity).all (· == 0)

/-- `ExDeleteHandleTable`: the table, if it was not freed, and the status. -/
def exDeleteHandleTable (s : StoredTable) : Option StoredTable × DisposalStatus :=
  let s := s.lock
  if exIsEmptyHandleTable s.table then (some s.unlock, .tableNotEmpty)
  else (none, .status .success)

/-- What the loop of `ExKillHandleTable` has done: the slots it leaves, its calls of the routine, each
with the pointer and its slot, and whether it came to the end. -/
structure KillRun where
  slots : List Nat
  calls : List (Nat × Nat)
  finished : Bool

/-- The loop of `ExKillHandleTable`, from slot `i` on. The routine may look at more than the pointer;
as it is called at most once for a slot, its answers are a function of both. -/
def killLoop (kill : Nat → Nat → Bool) : (i : Nat) → List Nat → KillRun
  | _, [] => ⟨[], [], true⟩
  | i, object :: rest =>
    if object = 0 then
      let r := killLoop kill (i + 1) rest
      ⟨0 :: r.slots, r.calls, r.finished⟩
    else if kill i object then
      let r := killLoop kill (i + 1) rest
      ⟨0 :: r.slots, (object, i) :: r.calls, r.finished⟩
    else ⟨object :: rest, [(object, i)], false⟩

/-- `ExKillHandleTable`: the table, if it was not freed, the status, and the calls of the routine. -/
def exKillStoredTable (s : StoredTable) (kill : Nat → Nat → Bool) :
    Option StoredTable × DisposalStatus × List (Nat × Nat) :=
  let s := s.lock
  let r := killLoop kill 0 s.table.handleMap
  if r.finished then (none, .status .success, r.calls)
  else
    (some { s with table := { s.table with handleMap := r.slots } }, .status .deleteCanceled, r.calls)

/-- What `ExDuplicateHandleTable` leaves: the old table, the table it has created, if that is there,
and the result. -/
structure TableDuplication where
  source : StoredTable
  created : Option StoredTable
  result : Except HandleStatus HandleTable

/-- `ExDuplicateHandleTable`, with what becomes of both tables. -/
def exDuplicateStoredTable (s : StoredTable) (duplicate : Nat → Nat)
    (tableRoom mapRoom resizeRoom : Bool) : Option TableDuplication :=
  match s.table.exCreateHandleTableInherit tableRoom mapRoom with
  | none => none
  | some (.error status) => some ⟨s, none, .error status⟩
  | some (.ok new) =>
    let s := s.lock
    match new.expResizeHandleTable s.table.capacity resizeRoom with
    | none => none
    | some (new, .success) =>
      if new.capacity = s.table.capacity then
        (s.table.duplicateLoop duplicate (s.table.maxIndex + 1) 0 new).map fun new =>
          ⟨s.unlock, some ⟨new, false⟩, .ok new⟩
      else none
    | some (new, status) => some ⟨s.unlock, (exDeleteHandleTable ⟨new, false⟩).1, .error status⟩

end HandleTable

/-- A call that disposes of a table, or may have to. -/
inductive DisposalCall
  | delete
  | kill (kill : Nat → Nat → Bool)
  | duplicate (duplicate : Nat → Nat) (tableRoom mapRoom resizeRoom : Bool)

namespace HandleTable

variable {t : HandleTable}

/-! ## What is asked of the operations -/

/-- The table is freed just if it holds no handle, and is otherwise refused and left alone. -/
structure DeletesEmpty (t : HandleTable) : Prop where
  freed : (exDeleteHandleTable ⟨t, false⟩).1 = none ↔ ∀ i, t.entry i = none
  refused : ¬ (∀ i, t.entry i = none) →
    exDeleteHandleTable ⟨t, false⟩ = (some ⟨t, false⟩, .tableNotEmpty)

/-- With success the routine was called once for each handle and the table is freed; otherwise the
table is there and not locked. -/
structure KillsAll (t : HandleTable) (kill : Nat → Nat → Bool) : Prop where
  success : (exKillStoredTable ⟨t, false⟩ kill).2.1 = .status .success →
    (exKillStoredTable ⟨t, false⟩ kill).2.2.Nodup ∧
    (∀ p i, (p, i) ∈ (exKillStoredTable ⟨t, false⟩ kill).2.2 ↔ t.entry i = some p) ∧
      (exKillStoredTable ⟨t, false⟩ kill).1 = none
  cancelled : (exKillStoredTable ⟨t, false⟩ kill).2.1 ≠ .status .success →
    ∃ t', (exKillStoredTable ⟨t, false⟩ kill).1 = some ⟨t', false⟩

/-- A duplication that fails leaves no new table behind, and the old one unlocked. -/
def LeaksNothing (t : HandleTable) (duplicate : Nat → Nat) (tableRoom mapRoom resizeRoom : Bool) :
    Prop :=
  ∀ d status, exDuplicateStoredTable ⟨t, false⟩ duplicate tableRoom mapRoom resizeRoom = some d →
    d.result = .error status → d.created = none ∧ d.source.locked = false

/-- What is asked of a call on a table. -/
def Disposes (t : HandleTable) : DisposalCall → Prop
  | .delete => t.DeletesEmpty
  | .kill kill => t.KillsAll kill
  | .duplicate duplicate tableRoom mapRoom resizeRoom =>
    t.LeaksNothing duplicate tableRoom mapRoom resizeRoom

/-- The routine agrees to every handle; the new table is not made, or needs no more slots than it is
made with, or gets them. A deletion is never harmless. -/
def Harmless (t : HandleTable) : DisposalCall → Prop
  | .delete => False
  | .kill kill => ∀ i p, t.entry i = some p → kill i p = true
  | .duplicate _ tableRoom mapRoom resizeRoom =>
    tableRoom = false ∨ (t.initialSize ≠ 0 ∧ mapRoom = false) ∨ t.capacity = t.initialSize ∨
      resizeRoom = true

/-! ## Deleting -/

theorem exIsEmptyHandleTable_iff (ht : t.Ok) :
    exIsEmptyHandleTable t = true ↔ ∀ i, t.entry i = none := by
  unfold exIsEmptyHandleTable
  rw [← ht.length, take_length, List.all_eq_true]
  constructor
  · intro h i
    by_contra hne
    obtain ⟨p, hp⟩ := Option.ne_none_iff_exists'.1 hne
    obtain ⟨hgt, hp0⟩ := entry_eq_some.1 hp
    exact hp0 (beq_iff_eq.1 (h p (mem_of_getElem? hgt)))
  · intro h p hp
    obtain ⟨i, hgt⟩ := mem_iff_getElem?.1 hp
    by_contra hne
    have he := entry_eq_some.2 ⟨hgt, fun h0 => hne (beq_iff_eq.2 h0)⟩
    rw [h i] at he
    cases he

/-- The test is the wrong way around. -/
theorem not_deletesEmpty (ht : t.Ok) : ¬ t.DeletesEmpty := by
  intro h
  have he := exIsEmptyHandleTable_iff ht
  have hfreed := h.freed
  cases hts : exIsEmptyHandleTable t with
  | true =>
    have hdl : exDeleteHandleTable ⟨t, false⟩ = (some ⟨t, false⟩, .tableNotEmpty) :=
      if_pos hts
    rw [hdl] at hfreed
    cases hfreed.2 (he.1 hts)
  | false =>
    have hdl : exDeleteHandleTable ⟨t, false⟩ = (none, .status .success) :=
      if_neg (by
        rw [Bool.not_eq_true]
        exact hts)
    rw [hdl] at hfreed
    rw [he.2 (hfreed.1 rfl)] at hts
    cases hts

/-! ## Killing -/

/-- The handles of a table, in the order of their slots. -/
def liveFrom (i : Nat) (slots : List Nat) : List (Nat × Nat) :=
  (slots.zipIdx i).filter fun c => c.1 != 0

theorem nodup_liveFrom (i : Nat) (slots : List Nat) : (liveFrom i slots).Nodup := by
  have hsl : (slots.zipIdx i).Nodup := by
    refine Nodup.of_map Prod.snd ?_
    rw [zipIdx_map_snd]
    exact nodup_range'
  exact hsl.sublist filter_sublist

theorem mem_liveFrom {p i : Nat} : (p, i) ∈ liveFrom 0 t.handleMap ↔ t.entry i = some p := by
  rw [liveFrom, mem_filter, mk_mem_zipIdx_iff_getElem?, entry_eq_some, bne_iff_ne]

theorem killLoop_spec (kill : Nat → Nat → Bool) (i : Nat) (slots : List Nat) :
    ((killLoop kill i slots).finished = true ↔ ∀ c ∈ liveFrom i slots, kill c.2 c.1 = true) ∧
      ((killLoop kill i slots).finished = true → (killLoop kill i slots).calls = liveFrom i slots) := by
  induction slots generalizing i with
  | nil => exact ⟨iff_of_true rfl fun _ h => absurd h not_mem_nil, fun _ => rfl⟩
  | cons obj rest ih =>
    obtain ⟨hfn, hc⟩ := ih (i + 1)
    rw [killLoop]
    by_cases hfr : obj = 0
    · have hlv : liveFrom i (obj :: rest) = liveFrom (i + 1) rest := by
        rw [liveFrom, zipIdx_cons, filter_cons_of_neg (by simp [hfr]), liveFrom]
      rw [if_pos hfr, hlv]
      exact ⟨hfn, hc⟩
    · have hlv : liveFrom i (obj :: rest) = (obj, i) :: liveFrom (i + 1) rest := by
        rw [liveFrom, zipIdx_cons, filter_cons_of_pos (by simp [hfr]), liveFrom]
      rw [if_neg hfr, hlv, forall_mem_cons]
      by_cases hkl : kill i obj = true
      · rw [if_pos hkl]
        refine ⟨?_, fun h => congrArg _ (hc h)⟩
        rw [and_iff_right hkl]
        exact hfn
      · rw [if_neg hkl]
        exact ⟨iff_of_false (fun h => by cases h) fun h => hkl h.1, fun h => by cases h⟩

theorem killLoop_erase (kill : Nat → Bool) (i : Nat) (slots : List Nat) :
    ((killLoop (fun _ => kill) i slots).slots, (killLoop (fun _ => kill) i slots).finished)
      = killSlots kill slots := by
  induction slots generalizing i with
  | nil => rfl
  | cons obj rest ih =>
    rw [killLoop, killSlots, ← ih (i + 1)]
    split
    · rfl
    · split <;> rfl

theorem killsAll_iff (kill : Nat → Nat → Bool) :
    t.KillsAll kill ↔ ∀ i p, t.entry i = some p → kill i p = true := by
  obtain ⟨hfn, hcl⟩ := killLoop_spec kill 0 t.handleMap
  have ha : (∀ c ∈ liveFrom 0 t.handleMap, kill c.2 c.1 = true) ↔
      ∀ i p, t.entry i = some p → kill i p = true :=
    ⟨fun h i p hp => h (p, i) (mem_liveFrom.2 hp), fun h c hc => h c.2 c.1 (mem_liveFrom.1 hc)⟩
  rw [← ha, ← hfn]
  cases hrn : (killLoop kill 0 t.handleMap).finished with
  | true =>
    have hkl : exKillStoredTable ⟨t, false⟩ kill
        = (none, .status .success, liveFrom 0 t.handleMap) := by
      rw [← hcl hrn]
      exact if_pos hrn
    refine iff_of_true ⟨fun _ => ?_, fun h => ?_⟩ rfl
    · rw [hkl]
      exact ⟨nodup_liveFrom .., fun p i => mem_liveFrom, rfl⟩
    · rw [hkl] at h
      exact absurd rfl h
  | false =>
    have hkl : exKillStoredTable ⟨t, false⟩ kill
        = (some ⟨{ t with handleMap := (killLoop kill 0 t.handleMap).slots }, true⟩,
          .status .deleteCanceled, (killLoop kill 0 t.handleMap).calls) :=
      if_neg (by rw [Bool.not_eq_true]; exact hrn)
    refine iff_of_false (fun h => ?_) fun h => by cases h
    obtain ⟨t', ht'⟩ := h.cancelled (by
      rw [hkl]
      exact fun h => by cases h)
    rw [hkl] at ht'
    cases ht'

/-! ## Duplicating -/

theorem exDeleteHandleTable_empty {new : HandleTable} (hw : exIsEmptyHandleTable new = true) :
    (exDeleteHandleTable ⟨new, false⟩).1 = some ⟨new, false⟩ := by
  have hdl : exDeleteHandleTable ⟨new, false⟩ = (some ⟨new, false⟩, .tableNotEmpty) :=
    if_pos hw
  rw [hdl]

theorem exDuplicateStoredTable_erase (s : StoredTable) (duplicate : Nat → Nat)
    (tableRoom mapRoom resizeRoom : Bool) :
    (exDuplicateStoredTable s duplicate tableRoom mapRoom resizeRoom).map TableDuplication.result
      = s.table.exDuplicateHandleTable duplicate tableRoom mapRoom resizeRoom := by
  unfold exDuplicateStoredTable exDuplicateHandleTable
  cases s.table.exCreateHandleTableInherit tableRoom mapRoom with
  | none => rfl
  | some made =>
    cases made with
    | error status => rfl
    | ok new =>
      dsimp only [StoredTable.lock]
      cases new.expResizeHandleTable s.table.capacity resizeRoom with
      | none => rfl
      | some resized =>
        obtain ⟨new', status⟩ := resized
        cases status with
        | success =>
          dsimp only
          by_cases hc : new'.capacity = s.table.capacity
          · rw [if_pos hc, if_pos hc, Option.map_map]
            rfl
          · rw [if_neg hc, if_neg hc]
            rfl
        | _ => rfl

/-- A table that inherits is made just if there is room for it and, if it starts with slots, for
these. It starts with free slots. -/
theorem inherit_cases (ht : t.Sound) (tr mr : Bool) : ((tr = false ∨ t.initialSize ≠ 0 ∧ mr = false) ∧
      ∃ st, t.exCreateHandleTableInherit tr mr = some (.error st)) ∨
    (¬ (tr = false ∨ t.initialSize ≠ 0 ∧ mr = false) ∧
      t.exCreateHandleTableInherit tr mr = some (.ok ⟨t.initialSize, t.growBy,
        t.initialSize, 0, t.limit, List.replicate t.initialSize 0⟩)) := by
  have hlm := ht.initialSize_le_limit
  have hft : ¬ blockItems t.initialSize < t.initialSize := by
    have hsize := ht.size
    have hin := ht.initial
    rw [blockItems_of_lt (by omega)]
    exact Nat.lt_irrefl _
  unfold exCreateHandleTableInherit exCreateHandleTable
  rw [if_neg (by omega : ¬ t.limit < t.initialSize), if_neg (by omega : ¬ t.limit < t.initialSize)]
  cases tr with
  | false => exact .inl ⟨.inl rfl, _, rfl⟩
  | true =>
    rw [Bool.not_true, if_neg Bool.false_ne_true]
    by_cases hz : t.initialSize = 0
    · refine .inr ⟨?_, ?_⟩
      · rintro (h | h)
        · cases h
        · exact h.1 hz
      · simp only [hz, if_true, replicate_zero]
    · simp only [if_neg hz]
      cases mr with
      | false => exact .inl ⟨.inr ⟨hz, rfl⟩, _, rfl⟩
      | true =>
        refine .inr ⟨?_, ?_⟩
        · rintro (h | h)
          · cases h
          · cases h.2
        · rw [Bool.not_true, if_neg Bool.false_ne_true, if_neg hft]

/-- The new table, made as large as the old one: that can only fail for want of memory. -/
theorem resize_inherited (ht : t.Sound) (rr : Bool) {new : HandleTable}
    (hc : new.capacity = t.initialSize) (hlm : new.limit = t.limit) :
    ((t.capacity = t.initialSize ∨ rr = true) ∧
      ∃ new', new.expResizeHandleTable t.capacity rr = some (new', .success)) ∨
    (¬ (t.capacity = t.initialSize ∨ rr = true) ∧
      new.expResizeHandleTable t.capacity rr = some (new, .insufficientMemory)) := by
  have hb := ht.limit
  have hin := ht.initial
  have hnt : ¬ (new.limit < t.capacity ∧ 0 < new.limit) := by
    rw [hlm]
    omega
  have hft : ¬ blockItems t.capacity < t.capacity := by
    rw [blockItems_of_lt ht.size]
    exact Nat.lt_irrefl _
  unfold expResizeHandleTable
  by_cases hsm : t.capacity = new.capacity
  · rw [if_pos hsm]
    exact .inl ⟨.inl (hsm.trans hc), _, rfl⟩
  · have hne : t.capacity ≠ t.initialSize := fun h => hsm (h.trans hc.symm)
    rw [if_neg hsm, if_neg fun h => hnt ⟨h.1, h.2.1⟩]
    simp only [if_neg hnt, if_neg hft]
    cases rr with
    | false =>
      refine .inr ⟨?_, rfl⟩
      rintro (h | h)
      · exact hne h
      · cases h
    | true =>
      rw [Bool.not_true, if_neg Bool.false_ne_true, if_pos (by omega)]
      exact .inl ⟨.inr rfl, _, rfl⟩

theorem leaksNothing_iff (ht : t.Sound) (dup : Nat → Nat) (tr mr rr : Bool) :
    t.LeaksNothing dup tr mr rr ↔
      tr = false ∨ (t.initialSize ≠ 0 ∧ mr = false) ∨ t.capacity = t.initialSize ∨ rr = true := by
  unfold LeaksNothing exDuplicateStoredTable
  rcases inherit_cases ht tr mr with ⟨hnn, st, hcr⟩ | ⟨hmd, hcr⟩
  · rw [hcr, ← or_assoc]
    refine iff_of_true (fun d st hd _ => ?_) (.inl hnn)
    cases hd
    exact ⟨rfl, rfl⟩
  · rw [hcr, ← or_assoc, or_iff_right hmd]
    generalize hw : HandleTable.mk t.initialSize t.growBy t.initialSize 0 t.limit
      (List.replicate t.initialSize 0) = new
    have he : exIsEmptyHandleTable new = true := by
      rw [exIsEmptyHandleTable, ← hw, List.all_eq_true]
      intro p hp
      rw [eq_of_mem_replicate (mem_of_mem_take hp)]
      rfl
    dsimp only [StoredTable.lock]
    have hc : new.capacity = t.initialSize := by rw [← hw]
    have hlm : new.limit = t.limit := by rw [← hw]
    rcases resize_inherited ht rr hc hlm with
      ⟨hrm, new', hrs⟩ | ⟨hrm, hrs⟩
    · rw [hrs]
      refine iff_of_true (fun d st hd herr => ?_) hrm
      dsimp only at hd
      by_cases hc : new'.capacity = t.capacity
      · rw [if_pos hc] at hd
        obtain ⟨new'', -, rfl⟩ := Option.map_eq_some_iff.1 hd
        cases herr
      · rw [if_neg hc] at hd
        cases hd
    · rw [hrs]
      refine iff_of_false (fun h => ?_) hrm
      obtain ⟨hlf, -⟩ := h _ _ rfl rfl
      rw [exDeleteHandleTable_empty he] at hlf
      cases hlf

/-! ## Every table -/

/-- **A call disposes of a table as it should just if it is harmless**: for every table that some
sequence of operations makes. -/
theorem handle_disposal_iff {initialSize growBy limit : Nat} {tableRoom mapRoom : Bool}
    {t₀ : HandleTable}
    (hcreate : exCreateHandleTable initialSize growBy limit tableRoom mapRoom = some (.ok t₀))
    (hrun : Reaches tableStep AnyCall t₀ t) (c : DisposalCall) : t.Disposes c ↔ t.Harmless c := by
  have ht := sound_of_reaches hcreate hrun
  cases c with
  | delete => exact iff_of_false (not_deletesEmpty ht.toOk) id
  | kill kill => exact killsAll_iff kill
  | duplicate duplicate tableRoom mapRoom resizeRoom =>
    exact leaksNothing_iff ht duplicate tableRoom mapRoom resizeRoom

/-- A table with one handle is killed as it should be. -/
theorem handle_disposal_one :
    ∃ t₀ t : HandleTable, exCreateHandleTable 1 16 2048 true true = some (.ok t₀) ∧
      Reaches tableStep AnyCall t₀ t ∧ t.entry 0 = some 7 ∧ t.Disposes (.kill fun _ _ => true) := by
  have hc : exCreateHandleTable 1 16 2048 true true = some (.ok ⟨1, 16, 1, 0, 2048, [0]⟩) := by
    decide +kernel
  have hrn : Reaches tableStep AnyCall ⟨1, 16, 1, 0, 2048, [0]⟩ ⟨1, 16, 1, 0, 2048, [7]⟩ :=
    .single (a := .call (.create 7 true)) trivial (by decide +kernel)
  refine ⟨_, _, hc, hrn, rfl, ?_⟩
  exact (handle_disposal_iff hc hrn (.kill fun _ _ => true)).2 fun _ _ _ => rfl

/-- The same table, but the routine refuses: the lock is not released. -/
theorem cancelled_kill_keeps_lock :
    ∃ t₀ t : HandleTable, exCreateHandleTable 1 16 2048 true true = some (.ok t₀) ∧
      Reaches tableStep AnyCall t₀ t ∧ ¬ ∀ c, t.Disposes c := by
  have hc : exCreateHandleTable 1 16 2048 true true = some (.ok ⟨1, 16, 1, 0, 2048, [0]⟩) := by
    decide +kernel
  have hrn : Reaches tableStep AnyCall ⟨1, 16, 1, 0, 2048, [0]⟩ ⟨1, 16, 1, 0, 2048, [7]⟩ :=
    .single (a := .call (.create 7 true)) trivial (by decide +kernel)
  refine ⟨_, _, hc, hrn, fun h => ?_⟩
  have hkl : KillsAll ⟨1, 16, 1, 0, 2048, [7]⟩ fun _ _ => false := h (.kill fun _ _ => false)
  obtain ⟨t', ht'⟩ := hkl.cancelled fun h => by cases h
  cases ht'

end HandleTable

end Boron.Ex
