import Boron.Ex.HandleTable

/-! # A handle table is a finite map

`HandleTable.entry` reads the array as a partial map from slots to pointers, `handles` as one from
handles to pointers. Each function of the table is an update of that map: growing appends free
slots, shrinking cuts off free slots only. The calls that do not come back are kept out by
`HandleTable.Returns`. -/

namespace Boron.Ex

open Function List Option

namespace HandleTable

variable {t t' : HandleTable}

/-- The pointer in a slot, if the slot is taken. -/
def entry (t : HandleTable) (i : Nat) : Option Nat := (t.handleMap[i]?).filter (· != 0)

/-- The table as a map from handles to pointers. -/
def handles (t : HandleTable) (h : Nat) : Option Nat :=
  if expCheckHandleCorrectness h then t.entry (handleToIndex h) else none

/-- The largest number of slots whose size in bytes fits a `size_t`. -/
def maxItems : Nat := wordSize / itemSize

/-- The invariant of a table. -/
structure Ok (t : HandleTable) : Prop where
  length : t.handleMap.length = t.capacity
  size : t.capacity < maxItems
  initial : t.initialSize ≤ t.capacity
  limit : t.limit = 0 ∨ t.capacity ≤ t.limit
  max : t.maxIndex < t.capacity ∨ t.capacity = 0 ∧ t.maxIndex = 0
  top : ∀ i, (t.entry i).isSome → i ≤ t.maxIndex

variable {n : Nat}

theorem blockItems_of_lt (h : n < maxItems) : blockItems n = n := by
  have hlt : itemSize * n < wordSize := by
    unfold maxItems itemSize wordSize at *
    omega
  rw [blockItems, mulW_of_lt hlt]
  exact Nat.mul_div_cancel_left n (by decide)

variable {i p : Nat}

theorem entry_eq_some : t.entry i = some p ↔ t.handleMap[i]? = some p ∧ p ≠ 0 := by
  rw [entry, filter_eq_some_iff, bne_iff_ne]

theorem entry_of_getElem? (h : t.handleMap[i]? = some p) : t.entry i = if p = 0 then none else some p := by
  rw [entry, h]
  by_cases hp : p = 0
  · rw [if_pos hp]
    simp [Option.filter, hp]
  · rw [if_neg hp]
    simp [Option.filter, hp]

theorem entry_of_length_le (h : t.handleMap.length ≤ i) : t.entry i = none := by
  rw [entry, List.getElem?_eq_none h]
  rfl

theorem lt_of_entry (h : t.entry i = some p) : i < t.handleMap.length :=
  (List.getElem?_eq_some_iff.1 (entry_eq_some.1 h).1).1

/-- Writing a slot updates the map at one place. -/
theorem entry_set (hi : i < t.handleMap.length) (ht : t'.handleMap = t.handleMap.set i p) :
    t'.entry = update t.entry i (if p = 0 then none else some p) := by
  funext j
  by_cases hj : j = i
  · subst hj
    have hgt : t'.handleMap[j]? = some p := by rw [ht, List.getElem?_set_self hi]
    rw [update_self, entry_of_getElem? hgt]
  · rw [update_of_ne hj, entry, entry, ht, List.getElem?_set_ne (Ne.symm hj)]

/-- What lies above the highest taken slot is free, and conversely. -/
theorem Ok.free (ht : t.Ok) (hi : t.maxIndex < i) : t.entry i = none := by
  by_contra hne
  have := ht.top i (isSome_iff_ne_none.2 hne)
  omega

theorem top_of_free {m : Nat → Option Nat} (h : ∀ i, n < i → m i = none) (i : Nat)
    (hi : (m i).isSome) : i ≤ n := by
  by_contra hlt
  rw [h i (Nat.lt_of_not_le hlt)] at hi
  cases hi

/-! ## Growing and shrinking -/

/-- The size a table grows to. -/
def grownSize (t : HandleTable) : Nat :=
  if t.limit < t.capacity + t.growBy ∧ 0 < t.limit then t.limit else t.capacity + t.growBy

/-- The size a full table asks for is one the pool can be asked for. -/
def GrowthFits (t : HandleTable) : Prop :=
  t.capacity + t.growBy < wordSize ∧ t.grownSize < maxItems

instance (t : HandleTable) : Decidable t.GrowthFits := inferInstanceAs (Decidable (_ ∧ _))

/-- `t'` is `t` with free slots appended. -/
structure Grown (t t' : HandleTable) : Prop where
  ok : t'.Ok
  capacity : t.capacity < t'.capacity
  entry : t'.entry = t.entry
  maxIndex : t'.maxIndex = t.maxIndex
  growBy : t'.growBy = t.growBy
  limit : t'.limit = t.limit

theorem entry_append_free {k : Nat} (ht : t'.handleMap = t.handleMap ++ List.replicate k 0) :
    t'.entry = t.entry := by
  funext i
  by_cases hi : i < t.handleMap.length
  · rw [entry, entry, ht, List.getElem?_append_left hi]
  · have hle := Nat.le_of_not_lt hi
    rw [entry_of_length_le hle, entry, ht, List.getElem?_append_right hle]
    cases h : (List.replicate k 0)[i - t.handleMap.length]? with
    | none => rfl
    | some p =>
      have hp : p = 0 := by
        obtain ⟨_, hgt⟩ := List.getElem?_eq_some_iff.1 h
        rw [← hgt, getElem_replicate]
      rw [hp]
      rfl

/-- The table `ExpResizeHandleTable` makes of `t` when it grows to `n` slots. -/
theorem grown_append (ht : t.Ok) (hlt : t.capacity < n) (hn : n < maxItems)
    (hlm : t.limit = 0 ∨ n ≤ t.limit) :
    t.Grown { t with
      handleMap := t.handleMap.take t.capacity ++ List.replicate (n - t.capacity) 0
      capacity := n } := by
  have htk : t.handleMap.take t.capacity = t.handleMap := by
    rw [← ht.length, take_length]
  have he : (HandleTable.mk n t.growBy t.initialSize t.maxIndex t.limit
      (t.handleMap.take t.capacity ++ List.replicate (n - t.capacity) 0)).entry = t.entry := by
    refine entry_append_free (k := n - t.capacity) ?_
    rw [htk]
  refine ⟨⟨?_, hn, ?_, hlm, ?_, ?_⟩, hlt, he, rfl, rfl, rfl⟩
  · change (t.handleMap.take t.capacity ++ _).length = n
    rw [htk, length_append, length_replicate, ht.length]
    omega
  · exact Nat.le_trans ht.initial (Nat.le_of_lt hlt)
  · left
    change t.maxIndex < n
    obtain hx | ⟨_, hx⟩ := ht.max <;> omega
  · intro i hi
    exact ht.top i (he ▸ hi)

/-- Growing fails and changes nothing, or appends free slots. -/
theorem resize_grow (ht : t.Ok) (hgr : 0 < t.growBy) (hft : t.GrowthFits) (room : Bool) :
    ∃ t' st, t.expResizeHandleTable (addW t.capacity t.growBy) room = some (t', st) ∧
      (st ≠ .success ∧ t' = t ∧ (st = .tooManyHandles ∨ st = .insufficientMemory) ∨
        st = .success ∧ t.Grown t') := by
  rw [expResizeHandleTable, addW_of_lt hft.1, if_neg (by omega)]
  split
  · exact ⟨t, _, rfl, .inl ⟨nofun, rfl, .inl rfl⟩⟩
  · next hrm =>
      have hw : (if t.limit < t.capacity + t.growBy ∧ 0 < t.limit then t.limit
          else t.capacity + t.growBy) = t.grownSize := rfl
      have hlt : t.capacity < t.grownSize := by
        rw [grownSize]
        split <;> omega
      have hlm : t.limit = 0 ∨ t.grownSize ≤ t.limit := by
        rw [grownSize]
        split <;> omega
      simp only [hw, blockItems_of_lt hft.2, Nat.lt_irrefl, if_false, if_pos hlt]
      split
      · exact ⟨t, _, rfl, .inl ⟨nofun, rfl, .inr rfl⟩⟩
      · exact ⟨_, _, rfl, .inr ⟨rfl, grown_append ht hlt hft.2 hlm⟩⟩

/-- The table as `ExpDeleteHandle` leaves it below the cut: every slot that is dropped is free. -/
theorem entry_take (ht : t'.handleMap = t.handleMap.take n)
    (hfr : ∀ i, n ≤ i → t.entry i = none) : t'.entry = t.entry := by
  funext i
  by_cases hi : i < n
  · rw [entry, entry, ht, List.getElem?_take_of_lt hi]
  · have hle := Nat.le_of_not_lt hi
    rw [hfr i hle]
    refine entry_of_length_le ?_
    rw [ht, length_take]
    omega

/-- The new maximum is not above the old one, and what lies above it is free. -/
theorem lowerMax_spec (n : Nat) (hfr : ∀ i, n < i → t.entry i = none) :
    lowerMax t.handleMap n ≤ n ∧ ∀ i, lowerMax t.handleMap n < i → t.entry i = none := by
  induction n with
  | zero => exact ⟨Nat.le_refl 0, hfr⟩
  | succ n ih =>
    rw [lowerMax]
    split
    · next hz =>
        have hn : t.entry (n + 1) = none := by
          cases h : t.handleMap[n + 1]? with
          | none => rw [entry, h]; rfl
          | some p =>
            rw [getD_eq_getElem?_getD, h, getD_some] at hz
            rw [entry_of_getElem? h, if_pos hz]
        obtain ⟨hle, hrs⟩ := ih fun i hi => by
          by_cases h : i = n + 1
          · rw [h, hn]
          · exact hfr i (by omega)
        exact ⟨by omega, hrs⟩
    · exact ⟨Nat.le_refl _, hfr⟩

/-- The bites leave the slots in use, and at least the initial size. -/
theorem shrunkCapacity_spec (hgr : 0 < t.growBy) {fuel : Nat} (hfl : n < fuel)
    (hn : n < maxItems) (hx : t.maxIndex < n) (hin : t.initialSize ≤ n) :
    ∃ m, t.shrunkCapacity fuel n = some m ∧ m ≤ n ∧ t.maxIndex < m ∧ t.initialSize ≤ m := by
  induction fuel generalizing n with
  | zero => omega
  | succ fuel ih =>
    rw [shrunkCapacity]
    split
    · next hb =>
        have hw : maxItems + maxItems < wordSize := by decide
        obtain ⟨h1, h2, h3⟩ := hb
        rw [addW_of_lt (show t.maxIndex + 1 < wordSize by omega), addW_of_lt (by omega)] at h1
        rw [addW_of_lt (by omega)] at h2
        obtain ⟨m, hm, hle, hlo, hlo'⟩ :=
          ih (n := n - t.growBy) (by omega) (by omega) (by omega) (by omega)
        exact ⟨m, hm, by omega, hlo, hlo'⟩
    · exact ⟨n, rfl, Nat.le_refl n, hx, hin⟩

/-- **A table that cannot grow never finishes the loop**: with `GrowBy` zero a bite changes
nothing. -/
theorem shrunkCapacity_of_growBy_zero (hgr : t.growBy = 0) (hn : n < wordSize)
    (hx : t.maxIndex < n) (hin : t.initialSize ≤ n) (fuel : Nat) :
    t.shrunkCapacity fuel n = none := by
  induction fuel with
  | zero => rfl
  | succ fuel ih =>
    rw [shrunkCapacity, if_pos, hgr, Nat.sub_zero, ih]
    refine ⟨?_, ?_, by omega⟩
    · rw [hgr, addW_of_lt (show t.maxIndex + 1 < wordSize by omega), addW_of_lt (by omega)]
      omega
    · rw [hgr, addW_of_lt (by omega)]
      omega

/-- `t'` is `t` with its map changed to `m`, its slots possibly fewer. -/
structure Changed (t : HandleTable) (m : Nat → Option Nat) (t' : HandleTable) : Prop where
  ok : t'.Ok
  entry : t'.entry = m
  maxIndex : t'.maxIndex ≤ t.maxIndex
  growBy : t'.growBy = t.growBy
  limit : t'.limit = t.limit
  pos : 0 < t.capacity → 0 < t'.capacity

/-- After the topmost handle is gone, the table shrinks without losing another. -/
theorem shrink_spec (ht : t.Ok) (hgr : 0 < t.growBy) (hpos : 0 < t.capacity) (room : Bool) :
    ∃ t', t.shrink room = some t' ∧ t.Changed t.entry t' := by
  obtain hmx | ⟨hz, -⟩ := ht.max
  swap
  · omega
  obtain ⟨hle, hfr⟩ := lowerMax_spec t.maxIndex fun _ hi => ht.free hi
  rw [shrink]
  generalize hlo : lowerMax t.handleMap t.maxIndex = low at hle hfr
  have hw : ({ t with maxIndex := low } : HandleTable).Ok := by
    refine ⟨ht.length, ht.size, ht.initial, ht.limit, .inl ?_, ?_⟩
    · exact Nat.lt_of_le_of_lt hle hmx
    · exact top_of_free hfr
  obtain ⟨n, hn, hnl, hnm, hnt⟩ := shrunkCapacity_spec (t := { t with maxIndex := low })
    hgr (Nat.lt_succ_self t.capacity) ht.size (Nat.lt_of_le_of_lt hle hmx) ht.initial
  simp only [hn]
  split
  · exact ⟨_, rfl, hw, rfl, hle, rfl, rfl, fun h => h⟩
  · next hne =>
      have hlt : n < t.capacity := by
        have : n ≠ t.capacity := hne
        omega
      have hnc : ¬ (t.limit < n ∧ 0 < t.limit) := by
        have := ht.limit
        omega
      rw [expResizeHandleTable, if_neg hne, if_neg (fun h => hnc ⟨h.1, h.2.1⟩)]
      simp only [if_neg hnc, blockItems_of_lt (Nat.lt_trans hlt ht.size), Nat.lt_irrefl,
        if_false, if_neg (Nat.not_lt_of_le hnl)]
      split
      · exact ⟨_, rfl, hw, rfl, hle, rfl, rfl, fun h => h⟩
      · refine ⟨_, rfl, ?_⟩
        have hc : ∀ i, n ≤ i → t.entry i = none := fun i hi => hfr i (Nat.lt_of_lt_of_le hnm hi)
        have he : ∀ x : HandleTable, x.handleMap = t.handleMap.take n → x.entry = t.entry :=
          fun x hx => entry_take hx hc
        refine ⟨⟨?_, Nat.lt_trans hlt ht.size, hnt, ?_, .inl hnm, ?_⟩, he _ rfl, hle, rfl,
          rfl, fun _ => Nat.lt_of_le_of_lt (Nat.zero_le low) hnm⟩
        · change (t.handleMap.take n).length = n
          rw [length_take, ht.length]
          omega
        · change t.limit = 0 ∨ n ≤ t.limit
          have := ht.limit
          omega
        · rw [he _ rfl]
          exact top_of_free hfr

/-! ## Taking and freeing a slot -/

/-- `t'` is `t` with a pointer put into the free slot `i`. -/
structure Placed (t : HandleTable) (i p : Nat) (t' : HandleTable) : Prop where
  ok : t'.Ok
  free : t.entry i = none
  entry : t'.entry = update t.entry i (some p)
  maxIndex : t'.maxIndex = if t.maxIndex < i then i else t.maxIndex
  growBy : t'.growBy = t.growBy
  limit : t'.limit = t.limit

theorem entry_place (hp : p ≠ 0) (hi : i < t.handleMap.length) :
    (t.place i p).entry = update t.entry i (some p) := by
  rw [entry_set hi rfl, if_neg hp]

theorem ok_place (ht : t.Ok) (hp : p ≠ 0) (hi : i < t.capacity) : (t.place i p).Ok := by
  refine ⟨?_, ht.size, ht.initial, ht.limit, .inl ?_, ?_⟩
  · change (t.handleMap.set i p).length = t.capacity
    rw [length_set, ht.length]
  · change (if t.maxIndex < i then i else t.maxIndex) < t.capacity
    have := ht.max
    split <;> omega
  · intro j hj
    change j ≤ if t.maxIndex < i then i else t.maxIndex
    by_cases hji : j = i
    · split <;> omega
    · rw [entry_place hp (ht.length ▸ hi), update_of_ne hji] at hj
      have := ht.top j hj
      split <;> omega

theorem placed_place (ht : t.Ok) (hp : p ≠ 0) (hi : i < t.capacity)
    (hfr : t.entry i = none) : t.Placed i p (t.place i p) :=
  ⟨ok_place ht hp hi, hfr, entry_place hp (ht.length ▸ hi), rfl, rfl, rfl⟩

theorem freeIndex_spec (ht : t.Ok) (h : t.freeIndex = some i) : i < t.capacity ∧ t.entry i = none := by
  rw [freeIndex, ← ht.length, take_length] at h
  obtain ⟨hi, hz, -⟩ := List.findIdx?_eq_some_iff_getElem.1 h
  have hgt : t.handleMap[i]? = some 0 := by
    rw [List.getElem?_eq_getElem hi, beq_iff_eq.1 hz]
  exact ⟨ht.length ▸ hi, by rw [entry_of_getElem? hgt, if_pos rfl]⟩

/-- `ExpCreateHandle` takes a free slot, or fails and changes nothing. -/
theorem expCreateHandle_spec (ht : t.Ok) (hp : p ≠ 0)
    (hft : t.freeIndex = none → 0 < t.growBy → t.GrowthFits) (room : Bool) :
    (∃ st, t.expCreateHandle p room = some (t, .error st) ∧
      (st = .tooManyHandles ∨ st = .insufficientMemory)) ∨
    ∃ t' i, t.expCreateHandle p room = some (t', .ok i) ∧ t.Placed i p t' ∧
      (t.growBy = 0 → t.freeIndex = some i) := by
  rw [expCreateHandle]
  cases hfr : t.freeIndex with
  | some i =>
    obtain ⟨hi, hnn⟩ := freeIndex_spec ht hfr
    exact .inr ⟨_, i, rfl, placed_place ht hp hi hnn, fun _ => rfl⟩
  | none =>
    simp only
    split
    · exact .inl ⟨_, rfl, .inl rfl⟩
    · next hw =>
        have hpos : 0 < t.growBy := Nat.pos_of_ne_zero hw
        obtain ⟨t', st, hz, hrs⟩ := resize_grow ht hpos (hft hfr hpos) room
        rw [hz]
        obtain ⟨hne, rfl, hst⟩ | ⟨rfl, hgr⟩ := hrs
        · left
          obtain rfl | rfl := hst
          · exact ⟨_, rfl, .inl rfl⟩
          · exact ⟨_, rfl, .inr rfl⟩
        · right
          have hln : t.capacity < t'.handleMap.length := hgr.ok.length ▸ hgr.capacity
          have hnn : t'.entry t.capacity = none := by
            rw [hgr.entry]
            exact entry_of_length_le (Nat.le_of_eq ht.length)
          have hpl := placed_place hgr.ok hp hgr.capacity hnn
          refine ⟨t'.place t.capacity p, t.capacity, if_pos hln, ⟨hpl.ok, ?_, ?_, ?_, ?_, ?_⟩,
            fun h => absurd h hw⟩
          · rw [← hgr.entry]
            exact hnn
          · rw [hpl.entry, hgr.entry]
          · rw [hpl.maxIndex, hgr.maxIndex]
          · exact hpl.growBy.trans hgr.growBy
          · exact hpl.limit.trans hgr.limit

/-- `ExpDeleteHandle` frees the slot, and returns unless it has to shrink a table that cannot
grow. -/
theorem expDeleteHandle_spec (ht : t.Ok) (hi : t.entry i = some p)
    (hrt : t.maxIndex = i → 0 < t.growBy) (room : Bool) :
    ∃ t', t.expDeleteHandle i room = some t' ∧ t.Changed (update t.entry i none) t' ∧
      (t.maxIndex ≠ i → t'.maxIndex = t.maxIndex) := by
  have hln := lt_of_entry hi
  have he : ({ t with handleMap := t.handleMap.set i 0 } : HandleTable).entry
      = update t.entry i none := by
    rw [entry_set hln rfl, if_pos rfl]
  have hok : ({ t with handleMap := t.handleMap.set i 0 } : HandleTable).Ok := by
    refine ⟨?_, ht.size, ht.initial, ht.limit, ht.max, ?_⟩
    · change (t.handleMap.set i 0).length = t.capacity
      rw [length_set, ht.length]
    · intro j hj
      rw [he] at hj
      by_cases hji : j = i
      · rw [hji, update_self] at hj
        cases hj
      · rw [update_of_ne hji] at hj
        exact ht.top j hj
  rw [expDeleteHandle, if_pos hln]
  by_cases hp : t.maxIndex = i
  · simp only [if_pos hp]
    obtain ⟨t', hh, hc⟩ :=
      shrink_spec hok (hrt hp) (show 0 < t.capacity by rw [← ht.length]; omega) room
    refine ⟨t', hh, ⟨hc.ok, ?_, hc.maxIndex, hc.growBy, hc.limit, hc.pos⟩, fun h => absurd hp h⟩
    rw [hc.entry, he]
  · simp only [if_neg hp]
    exact ⟨_, rfl, ⟨hok, he, Nat.le_refl _, rfl, rfl, fun h => h⟩, fun _ => rfl⟩

/-- The topmost handle of a table that cannot grow: `ExpDeleteHandle` never returns. -/
theorem expDeleteHandle_of_growBy_zero (ht : t.Ok) (hp : t.entry t.maxIndex = some p)
    (hgr : t.growBy = 0) (room : Bool) : t.expDeleteHandle t.maxIndex room = none := by
  have hln := lt_of_entry hp
  have hw : maxItems < wordSize := by decide
  have hc := ht.size
  obtain ⟨hle, -⟩ := lowerMax_spec (t := { t with handleMap := t.handleMap.set t.maxIndex 0 })
    t.maxIndex (fun i hi => by
      rw [entry_set hln rfl, update_of_ne (by omega), ht.free hi])
  rw [expDeleteHandle, if_pos hln]
  simp only [if_pos, shrink]
  have hx : lowerMax (t.handleMap.set t.maxIndex 0) t.maxIndex < t.capacity :=
    Nat.lt_of_le_of_lt hle (ht.length ▸ hln)
  have hlp := shrunkCapacity_of_growBy_zero
    (t := ⟨t.capacity, t.growBy, t.initialSize, lowerMax (t.handleMap.set t.maxIndex 0) t.maxIndex,
      t.limit, t.handleMap.set t.maxIndex 0⟩)
    hgr (Nat.lt_trans hc hw) hx ht.initial (t.capacity + 1)
  rw [hlp]

/-! ## Handles -/

theorem indexToHandle_of_lt (h : i < maxItems) : indexToHandle i = (i + 1) * 4 := by
  have hw : (maxItems + 1) * 4 < wordSize := by decide
  rw [indexToHandle, addW_of_lt (by omega), mulW_of_lt (by omega)]

theorem correct_handle (i : Nat) : expCheckHandleCorrectness ((i + 1) * 4) = true := by
  have h1 : (i + 1) * 4 ≠ 0 := by omega
  have h2 : (i + 1) * 4 % 4 = 0 := by omega
  rw [expCheckHandleCorrectness, bne_iff_ne.2 h1, beq_iff_eq.2 h2]
  rfl

theorem handleToIndex_handle (i : Nat) : handleToIndex ((i + 1) * 4) = i := by
  rw [handleToIndex]
  omega

theorem eq_handle_of_correct {h : Nat} (hc : expCheckHandleCorrectness h = true) :
    h = (handleToIndex h + 1) * 4 := by
  rw [expCheckHandleCorrectness, Bool.and_eq_true, bne_iff_ne, beq_iff_eq] at hc
  rw [handleToIndex]
  omega

theorem handles_handle (t : HandleTable) (i : Nat) : t.handles ((i + 1) * 4) = t.entry i := by
  rw [handles, if_pos (correct_handle i), handleToIndex_handle]

theorem handles_update {x : Option Nat} (h : t'.entry = update t.entry i x) :
    t'.handles = update t.handles ((i + 1) * 4) x := by
  funext a
  by_cases ha : a = (i + 1) * 4
  · rw [ha, update_self, handles_handle, h, update_self]
  · rw [update_of_ne ha, handles, handles]
    split
    · next hc =>
        have hne : handleToIndex a ≠ i := fun hai => ha (hai ▸ eq_handle_of_correct hc)
        rw [h, update_of_ne hne]
    · rfl

theorem handles_congr (h : t'.entry = t.entry) : t'.handles = t.handles := by
  funext a
  rw [handles, handles, h]

/-- The two ways a handle is looked up: it is rejected, or its slot is read. -/
theorem handles_cases (ht : t.Ok) (h : Nat) :
    ((!expCheckHandleCorrectness h) = true ∨ t.capacity ≤ handleToIndex h) ∧ t.handles h = none ∨
    ∃ i object, h = (i + 1) * 4 ∧ i < t.capacity ∧ t.handleMap[i]? = some object ∧
      t.handles h = if object = 0 then none else some object := by
  by_cases hc : expCheckHandleCorrectness h = true
  · by_cases hi : t.capacity ≤ handleToIndex h
    · refine .inl ⟨.inr hi, ?_⟩
      rw [handles, if_pos hc]
      exact entry_of_length_le (ht.length ▸ hi)
    · right
      have hlt : handleToIndex h < t.handleMap.length := ht.length ▸ Nat.lt_of_not_le hi
      refine ⟨handleToIndex h, t.handleMap[handleToIndex h], eq_handle_of_correct hc,
        Nat.lt_of_not_le hi, List.getElem?_eq_getElem hlt, ?_⟩
      rw [handles, if_pos hc, entry_of_getElem? (List.getElem?_eq_getElem hlt)]
  · refine .inl ⟨.inl ?_, ?_⟩
    · simpa using hc
    · rw [handles, if_neg hc]

end HandleTable

/-! ## The calls -/

/-- What a call does to a map from handles to pointers. -/
def HandleCall.Spec (c : HandleCall) (m : Nat → Option Nat) (r : HandleResult)
    (m' : Nat → Option Nat) : Prop :=
  match c with
  | .create p _ =>
    p = 0 ∧ r = .error .invalidParameter ∧ m' = m ∨
    p ≠ 0 ∧ (r = .error .tooManyHandles ∨ r = .error .insufficientMemory) ∧ m' = m ∨
    p ≠ 0 ∧ ∃ i, r = .ok ((i + 1) * 4) ∧ m ((i + 1) * 4) = none ∧
      m' = update m ((i + 1) * 4) (some p)
  | .get h => r = (m h).elim (.error .invalidHandle) .ok ∧ m' = m
  | .delete h kill _ =>
    (m h).elim (r = .error .invalidHandle ∧ m' = m) fun p =>
      if kill p then r = .ok 0 ∧ m' = update m h none
      else r = .error .deleteCanceled ∧ m' = m
  | .duplicate h dup _ _ =>
    (m h).elim (r = .error .invalidHandle ∧ m' = m) fun p =>
      (r = .error .tooManyHandles ∨ r = .error .insufficientMemory) ∧ m' = m ∨
      dup p = 0 ∧ r = .error .unsupportedFunction ∧ m' = m ∨
      dup p ≠ 0 ∧ ∃ i, r = .ok ((i + 1) * 4) ∧ m ((i + 1) * 4) = none ∧
        m' = update m ((i + 1) * 4) (some (dup p))
  | .filter picks kill _ => r = .ok 0 ∧ ∀ h, m' h = (m h).filter fun p => !(picks p && kill p)

namespace HandleTable

variable {t t' : HandleTable}

/-- The calls the code comes back from with its map intact. Left out are a deletion of the topmost
handle of a table that cannot grow, a duplicate of a handle that is not live, a filter over a table
without slots, and a growth to a size that wraps around. -/
def Returns (t : HandleTable) : HandleCall → Prop
  | .create p _ => p ≠ 0 → t.freeIndex = none → 0 < t.growBy → t.GrowthFits
  | .get _ => True
  | .delete h kill _ =>
    ∀ p, t.handles h = some p → kill p → handleToIndex h = t.maxIndex → 0 < t.growBy
  | .duplicate h duplicate _ _ =>
    (expCheckHandleCorrectness h → handleToIndex h < t.capacity → (t.handles h).isSome) ∧
    (t.freeIndex = none → 0 < t.growBy → t.GrowthFits) ∧
    ∀ p, t.handles h = some p → duplicate p = 0 → t.growBy = 0 →
      ∀ i, t.freeIndex = some i → i < t.maxIndex
  | .filter filter kill _ =>
    0 < t.capacity ∧
    (t.growBy = 0 → ∀ p, t.entry t.maxIndex = some p → (filter p && kill p) = false)

/-- A call returns, keeps the invariant, and does what it does to the map. -/
def Serves (t : HandleTable) (c : HandleCall) : Prop :=
  ∃ t' r, t.call c = some (t', r) ∧ t'.Ok ∧ t'.limit = t.limit ∧ c.Spec t.handles r t'.handles

theorem serves_create (ht : t.Ok) {p : Nat} {room : Bool} (hrt : t.Returns (.create p room)) :
    t.Serves (.create p room) := by
  simp only [Serves, call, exCreateHandle]
  by_cases hp : p = 0
  · rw [if_pos hp]
    exact ⟨t, _, rfl, ht, rfl, .inl ⟨hp, rfl, rfl⟩⟩
  · rw [if_neg hp]
    obtain ⟨st, hc, hst⟩ | ⟨t', i, hc, hpl, -⟩ :=
      expCreateHandle_spec ht hp (hrt hp) room
    · refine ⟨t, .error st, by rw [hc]; rfl, ht, rfl, .inr (.inl ⟨hp, ?_, rfl⟩)⟩
      obtain rfl | rfl := hst
      · exact .inl rfl
      · exact .inr rfl
    · have hlv : t'.entry i = some p := by rw [hpl.entry, update_self]
      have hi : i < maxItems := by
        have := lt_of_entry hlv
        have := hpl.ok.length
        have := hpl.ok.size
        omega
      refine ⟨t', .ok ((i + 1) * 4), ?_, hpl.ok, hpl.limit, .inr (.inr ⟨hp, i, rfl, ?_, ?_⟩)⟩
      · rw [hc, ← indexToHandle_of_lt hi]
        rfl
      · rw [handles_handle, hpl.free]
      · exact handles_update hpl.entry

theorem serves_get (ht : t.Ok) (h : Nat) : t.Serves (.get h) := by
  simp only [Serves, call, exGetPointerFromHandle]
  obtain ⟨hb, hnn⟩ | ⟨i, object, rfl, hi, hgt, hsm⟩ := handles_cases ht h
  · refine ⟨t, .error .invalidHandle, ?_, ht, rfl, ?_, rfl⟩
    · obtain hb | hb := hb
      · rw [if_pos hb, map_some]
      · rw [if_pos hb, ite_self, map_some]
    · rw [hnn, elim_none]
  · rw [handleToIndex_handle, correct_handle, if_neg (by decide), if_neg (Nat.not_le_of_lt hi), hgt]
    refine ⟨t, if object = 0 then .error .invalidHandle else .ok object, ?_, ht, rfl, ?_, rfl⟩
    · simp only
      split <;> rfl
    · rw [hsm]
      split <;> rfl

variable {h : Nat} {kill : Nat → Bool}

/-- `ExDeleteHandle`, as the other calls use it. -/
theorem exDeleteHandle_spec (ht : t.Ok)
    (hrt : ∀ p, t.handles h = some p → kill p → handleToIndex h = t.maxIndex → 0 < t.growBy)
    (room : Bool) :
    ∃ t' status, t.exDeleteHandle h kill room = some (t', status) ∧
      (t.handles h).elim (status = .invalidHandle ∧ t' = t) fun p =>
        if kill p then status = .success ∧ t.Changed (update t.entry (handleToIndex h) none) t' ∧
          (t.maxIndex ≠ handleToIndex h → t'.maxIndex = t.maxIndex)
        else status = .deleteCanceled ∧ t' = t := by
  simp only [exDeleteHandle]
  obtain ⟨hb, hnn⟩ | ⟨i, object, rfl, hi, hgt, hsm⟩ := handles_cases ht h
  · refine ⟨t, .invalidHandle, ?_, ?_⟩
    · obtain hb | hb := hb
      · rw [if_pos hb]
      · rw [if_pos hb, ite_self]
    · rw [hnn]
      exact ⟨rfl, rfl⟩
  · have hx := handleToIndex_handle i
    simp only [hx, correct_handle, hgt] at hrt ⊢
    rw [if_neg (by decide), if_neg (Nat.not_le_of_lt hi)]
    by_cases hob : object = 0
    · rw [hsm, if_pos hob, if_pos hob]
      exact ⟨t, _, rfl, rfl, rfl⟩
    · rw [hsm, if_neg hob] at hrt ⊢
      rw [if_neg hob]
      simp only [elim_some]
      cases hkl : kill object with
      | false =>
        refine ⟨t, .deleteCanceled, rfl, ?_⟩
        rw [if_neg Bool.false_ne_true]
        exact ⟨rfl, rfl⟩
      | true =>
        have he : t.entry i = some object := entry_eq_some.2 ⟨hgt, hob⟩
        obtain ⟨t', hdl, hc, hmx⟩ := expDeleteHandle_spec ht he
          (fun hp => hrt object rfl hkl hp.symm) room
        refine ⟨t', .success, ?_, ?_⟩
        · rw [hdl]
          rfl
        · rw [if_pos rfl]
          exact ⟨rfl, hc, hmx⟩

theorem serves_delete (ht : t.Ok) {room : Bool}
    (hrt : t.Returns (.delete h kill room)) : t.Serves (.delete h kill room) := by
  obtain ⟨t', st, hdl, hp⟩ := exDeleteHandle_spec ht hrt room
  simp only [Serves, call, hdl, map_some, HandleCall.Spec]
  cases hm : t.handles h with
  | none =>
    rw [hm] at hp
    obtain ⟨rfl, rfl⟩ := hp
    exact ⟨_, _, rfl, ht, rfl, rfl, rfl⟩
  | some p =>
    rw [hm, elim_some] at hp
    simp only [elim_some]
    split at hp
    · next hkl =>
        obtain ⟨rfl, hh, -⟩ := hp
        refine ⟨t', .ok 0, rfl, hh.ok, hh.limit, ?_⟩
        rw [if_pos hkl]
        refine ⟨rfl, ?_⟩
        have hcr : expCheckHandleCorrectness h = true := by
          by_contra hc
          rw [handles, if_neg hc] at hm
          cases hm
        rw [handles_update hh.entry, ← eq_handle_of_correct hcr]
    · next hkl =>
        obtain ⟨rfl, rfl⟩ := hp
        refine ⟨_, _, rfl, ht, rfl, ?_⟩
        rw [if_neg hkl]
        exact ⟨rfl, rfl⟩

theorem serves_duplicate (ht : t.Ok) {dup : Nat → Nat} {gr sr : Bool}
    (hrt : t.Returns (.duplicate h dup gr sr)) :
    t.Serves (.duplicate h dup gr sr) := by
  obtain ⟨hlv, hft, hdt⟩ := hrt
  simp only [Serves, call, exDuplicateHandle, HandleCall.Spec]
  obtain ⟨hb, hnn⟩ | ⟨j, object, rfl, hj, hgt, hsm⟩ := handles_cases ht h
  · refine ⟨t, .error .invalidHandle, ?_, ht, rfl, ?_⟩
    · obtain hb | hb := hb
      · rw [if_pos hb]
      · rw [if_pos hb, ite_self]
    · rw [hnn]
      exact ⟨rfl, rfl⟩
  · have hx := handleToIndex_handle j
    have hob : object ≠ 0 := by
      intro hz
      have := hlv (correct_handle j) (by rw [hx]; exact hj)
      rw [hsm, if_pos hz] at this
      cases this
    rw [if_neg hob] at hsm
    rw [hx, correct_handle, if_neg (by decide), if_neg (Nat.not_le_of_lt hj), hsm]
    simp only [elim_some]
    obtain ⟨status, hcr, hst⟩ | ⟨t', i, hcr, hp, hfs⟩ :=
      expCreateHandle_spec ht Nat.one_ne_zero hft gr
    · rw [hcr]
      refine ⟨t, .error status, rfl, ht, rfl, .inl ⟨?_, rfl⟩⟩
      obtain rfl | rfl := hst
      · exact .inl rfl
      · exact .inr rfl
    · -- The source is live, so it is not the slot that was just reserved.
      have hji : j ≠ i := by
        rintro rfl
        have hfr := hp.free
        rw [← handles_handle, hsm] at hfr
        cases hfr
      have hsr : t'.handleMap[j]? = some object := by
        have : t'.entry j = some object := by
          rw [hp.entry, update_of_ne hji, ← handles_handle, hsm]
        exact (entry_eq_some.1 this).1
      have hrs : t'.entry i = some 1 := by rw [hp.entry, update_self]
      have hln := lt_of_entry hrs
      have hmx : i < maxItems := by
        have := hp.ok.length
        have := hp.ok.size
        omega
      rw [hcr]
      simp only [hsr]
      by_cases hz : dup object = 0
      · rw [if_pos hz]
        obtain ⟨t'', hdl, hc, -⟩ := expDeleteHandle_spec hp.ok hrs (by
            intro htp
            rw [hp.growBy]
            by_contra hpos
            have hgr : t.growBy = 0 := by omega
            have hlt := hdt object hsm hz hgr i (hfs hgr)
            rw [hp.maxIndex] at htp
            split at htp <;> omega)
          sr
        refine ⟨t'', .error .unsupportedFunction, by rw [hdl]; rfl, hc.ok,
          hc.limit.trans hp.limit, .inr (.inl ⟨hz, rfl, handles_congr ?_⟩)⟩
        rw [hc.entry, hp.entry, update_idem, ← hp.free, update_eq_self]
      · rw [if_neg hz]
        have he : ({ t' with handleMap := t'.handleMap.set i (dup object) } :
            HandleTable).entry = update t.entry i (some (dup object)) := by
          rw [entry_set hln rfl, if_neg hz, hp.entry, update_idem]
        refine ⟨_, _, rfl, ⟨?_, hp.ok.size, hp.ok.initial, hp.ok.limit,
          hp.ok.max, ?_⟩, hp.limit, .inr (.inr ⟨hz, i, ?_, ?_, ?_⟩)⟩
        · change (t'.handleMap.set i _).length = t'.capacity
          rw [length_set, hp.ok.length]
        · intro k hk
          refine hp.ok.top k ?_
          by_cases hki : k = i
          · rw [hki, hrs]
            rfl
          · rw [he, update_of_ne hki] at hk
            rwa [hp.entry, update_of_ne hki]
        · rw [indexToHandle_of_lt hmx]
        · rw [handles_handle, hp.free]
        · exact handles_update he

/-- What a filter leaves of a slot. -/
def kept (filter kill : Nat → Bool) (x : Option Nat) : Option Nat :=
  x.filter fun p => !(filter p && kill p)

/-- The loop of the filter, from slot `i` on. -/
theorem filterLoop_spec {fil : Nat → Bool} (room : Nat → Bool) {fuel : Nat} (i : Nat)
    (ht : t.Ok) (hpos : 0 < t.capacity) (hfl : t.maxIndex < fuel + i)
    (htp : t.growBy = 0 → ∀ p, t.entry t.maxIndex = some p → (fil p && kill p) = false) :
    ∃ t', filterLoop fil kill room fuel t i = some t' ∧ t'.Ok ∧ t'.limit = t.limit ∧
      ∀ j, t'.entry j = if i ≤ j then kept fil kill (t.entry j) else t.entry j := by
  induction fuel generalizing t i with
  | zero =>
    refine ⟨t, rfl, ht, rfl, fun j => ?_⟩
    split
    · rw [ht.free (by omega)]
      rfl
    · rfl
  | succ fuel ih =>
    rw [filterLoop]
    split
    · next hi =>
        have hil : i < t.handleMap.length := by
          have := ht.max
          have := ht.length
          omega
        have hgt := List.getElem?_eq_getElem hil
        rw [hgt]
        generalize t.handleMap[i] = object at hgt
        have he := entry_of_getElem? hgt
        -- A round that leaves slot `i` as it is.
        have hsk : kept fil kill (t.entry i) = t.entry i →
            ∃ t', filterLoop fil kill room fuel t (i + 1) = some t' ∧ t'.Ok ∧ t'.limit = t.limit ∧
              ∀ j, t'.entry j = if i ≤ j then kept fil kill (t.entry j) else t.entry j := by
          intro hkp
          obtain ⟨t', hlp, hok, hlm, hrs⟩ := ih (i + 1) ht hpos (by omega) htp
          refine ⟨t', hlp, hok, hlm, fun j => ?_⟩
          rw [hrs j]
          by_cases hj : i = j
          · subst hj
            rw [if_neg (by omega), if_pos (Nat.le_refl i), hkp]
          · by_cases hle : i ≤ j
            · rw [if_pos (by omega), if_pos hle]
            · rw [if_neg (by omega), if_neg hle]
        simp only
        split
        · next hz =>
            refine hsk ?_
            rw [he, if_pos hz]
            rfl
        · next hoc =>
            rw [if_neg hoc] at he
            split
            · next hft =>
                have him : i < maxItems := by
                  have := ht.length
                  have := ht.size
                  omega
                have hh := handleToIndex_handle i
                have hrt : ∀ p, t.handles ((i + 1) * 4) = some p → kill p →
                    handleToIndex ((i + 1) * 4) = t.maxIndex → 0 < t.growBy := by
                  intro p hp hkl hx
                  rw [handles_handle] at hp
                  rw [hh] at hx
                  by_contra hgr
                  have hb : object = p := some.inj (he.symm.trans hp)
                  have := htp (by omega) p (hx ▸ hp)
                  rw [← hb, hft, hb, hkl] at this
                  cases this
                obtain ⟨t', st, hdl, hsp⟩ := exDeleteHandle_spec ht hrt (room i)
                rw [indexToHandle_of_lt him, hdl]
                rw [handles_handle, he, elim_some] at hsp
                simp only
                split at hsp
                · next hkl =>
                    obtain ⟨-, hc, hmx⟩ := hsp
                    rw [hh] at hc hmx
                    have htp' : t'.growBy = 0 → ∀ p, t'.entry t'.maxIndex = some p →
                        (fil p && kill p) = false := by
                      intro hgr p hp
                      rw [hc.growBy] at hgr
                      have hne : t.maxIndex ≠ i := by
                        rintro rfl
                        have := hrt object (by rw [handles_handle, he]) hkl hh
                        omega
                      rw [hmx hne, hc.entry, update_of_ne hne] at hp
                      exact htp hgr p hp
                    obtain ⟨t'', hlp, hok, hlm, hrs⟩ :=
                      ih (i + 1) hc.ok (hc.pos hpos) (by have := hc.maxIndex; omega) htp'
                    refine ⟨t'', hlp, hok, hlm.trans hc.limit, fun j => ?_⟩
                    rw [hrs j, hc.entry]
                    by_cases hj : i = j
                    · subst hj
                      rw [if_neg (by omega), if_pos (Nat.le_refl i), update_self, he]
                      simp [kept, Option.filter, hft, hkl]
                    · rw [update_of_ne (Ne.symm hj)]
                      by_cases hle : i ≤ j
                      · rw [if_pos (by omega), if_pos hle]
                      · rw [if_neg (by omega), if_neg hle]
                · next hkl =>
                    obtain ⟨-, rfl⟩ := hsp
                    refine hsk ?_
                    rw [he]
                    simp [kept, hkl]
            · next hft =>
                refine hsk ?_
                rw [he]
                simp [kept, hft]
    · next hi =>
        refine ⟨t, rfl, ht, rfl, fun j => ?_⟩
        split
        · rw [ht.free (by omega)]
          rfl
        · rfl

theorem serves_filter (ht : t.Ok) {picks : Nat → Bool} {room : Nat → Bool}
    (hrt : t.Returns (.filter picks kill room)) : t.Serves (.filter picks kill room) := by
  obtain ⟨hpos, htp⟩ := hrt
  obtain ⟨t', hp, hok, hlm, he⟩ :=
    filterLoop_spec room 0 ht hpos (Nat.lt_succ_self t.maxIndex) htp
  refine ⟨t', .ok 0, ?_, hok, hlm, rfl, fun h => ?_⟩
  · rw [call, exFilterHandleTable, hp]
    rfl
  · rw [handles, handles]
    split
    · rw [he, if_pos (Nat.zero_le _)]
      rfl
    · rfl

theorem serves (ht : t.Ok) {c : HandleCall} (hrt : t.Returns c) : t.Serves c := by
  cases c with
  | create p room => exact serves_create ht hrt
  | get h => exact serves_get ht h
  | delete h kill room => exact serves_delete ht hrt
  | duplicate h dup gr sr => exact serves_duplicate ht hrt
  | filter picks kill room => exact serves_filter ht hrt

/-! ## Every run -/

theorem lt_maxItems_of_blockItems {n : Nat} (h : ¬ blockItems n < n) : n < maxItems := by
  have hb : blockItems n < maxItems :=
    Nat.div_lt_div_of_lt_of_dvd (by decide) (mulW_lt itemSize n)
  omega

theorem ok_exCreateHandleTable {is gb limit : Nat} {tr mr : Bool}
    (h : exCreateHandleTable is gb limit tr mr = some (.ok t)) :
    t.Ok ∧ (∀ i, t.entry i = none) ∧ t.limit = if limit < is then is else limit := by
  simp only [exCreateHandleTable] at h
  have hlm : is ≤ if limit < is then is else limit := by
    split <;> omega
  generalize (if limit < is then is else limit) = limit' at h hlm ⊢
  generalize (if limit < is then 0 else gb) = gb' at h
  split_ifs at h with _ hz _ hft
  · cases h
  · cases h
    have hsize : 0 < maxItems := by decide
    refine ⟨⟨rfl, hsize, Nat.le_refl 0, .inr (Nat.zero_le limit'), .inr ⟨rfl, rfl⟩, ?_⟩,
      fun i => rfl, rfl⟩
    intro i hi
    cases hi
  · cases h
  · cases h
    have he : ∀ i, (HandleTable.mk is gb' is 0 limit' (List.replicate is 0)).entry i = none := by
      intro i
      rw [entry_append_free (t := ⟨0, 0, 0, 0, 0, []⟩) (k := is) rfl]
      rfl
    refine ⟨⟨length_replicate, lt_maxItems_of_blockItems hft, Nat.le_refl _, .inr hlm,
      .inl (Nat.pos_of_ne_zero hz), ?_⟩, he, rfl⟩
    intro i hi
    rw [he i] at hi
    cases hi

theorem step_ok {c : HandleCall} (ht : t.Ok) (hrt : t.Returns c) (hst : t.step c = some t') :
    t'.Ok ∧ t'.limit = t.limit := by
  obtain ⟨t₁, r, hc, hok, hlm, -⟩ := serves ht hrt
  rw [step, hc] at hst
  obtain rfl : t₁ = t' := some.inj hst
  exact ⟨hok, hlm⟩

/-- **A handle table is a finite map** from handles to non-null pointers, in every state of every
run of calls that come back: every live handle is `(i + 1) * 4` with `i` at most `MaxIndex`, which
is below `Capacity`; `Capacity` is at most `Limit`, unless `Limit` is zero and there is none; and
each next call returns, with the effect on the map that its name promises. -/
theorem handleTable_is_map {initialSize growBy limit : Nat} {tableRoom mapRoom : Bool}
    {t₀ : HandleTable}
    (hcreate : exCreateHandleTable initialSize growBy limit tableRoom mapRoom = some (.ok t₀))
    (hrun : Reaches step Returns t₀ t) :
    (∀ h, t₀.handles h = none) ∧
    (t.limit = if limit < initialSize then initialSize else limit) ∧
    (t.limit = 0 ∨ t.capacity ≤ t.limit) ∧
    (∀ h p, t.handles h = some p → p ≠ 0 ∧
      ∃ i, h = (i + 1) * 4 ∧ i ≤ t.maxIndex ∧ t.maxIndex < t.capacity) ∧
    ∀ c, t.Returns c → ∃ t' r, t.call c = some (t', r) ∧ c.Spec t.handles r t'.handles := by
  obtain ⟨hok₀, he, hlm₀⟩ := ok_exCreateHandleTable hcreate
  obtain ⟨hok, hlm⟩ := hrun.invariant (I := fun u => u.Ok ∧ u.limit = t₀.limit) ⟨hok₀, rfl⟩ (by
      rintro u c u' ⟨hu, hul⟩ hrt hst
      obtain ⟨hu', hul'⟩ := step_ok hu hrt hst
      exact ⟨hu', hul'.trans hul⟩)
  refine ⟨?_, hlm.trans hlm₀, hok.limit, ?_, ?_⟩
  · intro h
    rw [handles, he, ite_self]
  · intro h p hp
    have hcr : expCheckHandleCorrectness h = true := by
      by_contra hc
      rw [handles, if_neg hc] at hp
      cases hp
    rw [handles, if_pos hcr] at hp
    have hlt := lt_of_entry hp
    refine ⟨(entry_eq_some.1 hp).2, handleToIndex h, eq_handle_of_correct hcr,
      hok.top _ (by rw [hp]; rfl), ?_⟩
    have := hok.max
    have := hok.length
    omega
  · intro c hrt
    obtain ⟨t', r, hcl, -, -, hsp⟩ := serves hok hrt
    exact ⟨t', r, hcl, hsp⟩

/-- An empty table of the test driver's kind, one handle made, and the next one to come. -/
theorem handleTable_is_map_sample :
    ∃ t₀ t : HandleTable, exCreateHandleTable 0 1 4 true true = some (.ok t₀) ∧
      Reaches step Returns t₀ t ∧ t.handles 4 = some 7 ∧
      ∃ t' r, t.call (.create 9 true) = some (t', r) ∧
        (HandleCall.create 9 true).Spec t.handles r t'.handles := by
  have hc : exCreateHandleTable 0 1 4 true true = some (.ok ⟨0, 1, 0, 0, 4, []⟩) := rfl
  have hrn : Reaches step Returns ⟨0, 1, 0, 0, 4, []⟩ ⟨1, 1, 0, 0, 4, [7]⟩ := by
    refine .single (a := .create 7 true) (fun _ _ _ => ?_) (by decide +kernel)
    decide +kernel
  refine ⟨_, _, hc, hrn, by decide, ?_⟩
  refine (handleTable_is_map hc hrn).2.2.2.2 _ fun _ _ _ => ?_
  decide +kernel

/-- `Limit` zero means no limit: the table grows past it. -/
theorem capacity_exceeds_limit :
    ∃ t₀ t : HandleTable, exCreateHandleTable 0 1 0 true true = some (.ok t₀) ∧
      t₀.step (.create 7 true) = some t ∧ t.limit < t.capacity :=
  ⟨⟨0, 1, 0, 0, 0, []⟩, ⟨1, 1, 0, 0, 0, [7]⟩, rfl, by decide +kernel, by decide⟩

end HandleTable

end Boron.Ex
