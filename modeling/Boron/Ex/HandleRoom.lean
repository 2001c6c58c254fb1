import Mathlib
import Boron.Ex.HandleTables

/-! # What a handle table has room for

When `ExCreateHandle` finds a slot and when a table can be duplicated, in terms of the table and of
what the pool answers. -/

namespace Boron.Ex.HandleTable

variable {t : HandleTable}

/-- The table has a free slot, or it may grow and there is memory for that. -/
def Admits (t : HandleTable) (room : Bool) : Prop :=
  t.freeIndex.isSome ∨ 0 < t.growBy ∧ (t.limit = 0 ∨ t.capacity < t.limit) ∧ room = true

instance (t : HandleTable) (room : Bool) : Decidable (t.Admits room) :=
  inferInstanceAs (Decidable (_ ∨ _))

theorem resize_admits (ht : t.Ok) (hgr : 0 < t.growBy) (hft : t.GrowthFits) (room : Bool) :
    if (t.limit = 0 ∨ t.capacity < t.limit) ∧ room = true then
      ∃ t', t.expResizeHandleTable (addW t.capacity t.growBy) room = some (t', .success) ∧ t.Grown t'
    else ∃ st, st ≠ .success ∧
      t.expResizeHandleTable (addW t.capacity t.growBy) room = some (t, st) := by
  obtain ⟨t', st, hrs, hp⟩ := resize_grow ht hgr hft room
  have hif : st = .success ↔ (t.limit = 0 ∨ t.capacity < t.limit) ∧ room = true := by
    have hmr : ¬ t.capacity + t.growBy = t.capacity := by omega
    rw [expResizeHandleTable, addW_of_lt hft.1, if_neg hmr] at hrs
    by_cases hfu : t.limit < t.capacity + t.growBy ∧ 0 < t.limit ∧ t.limit ≤ t.capacity
    · rw [if_pos hfu] at hrs
      cases hrs
      exact iff_of_false (fun h => by cases h) (by omega)
    · rw [if_neg hfu] at hrs
      cases room with
      | false =>
        cases hrs
        exact iff_of_false (fun h => by cases h) (by simp)
      | true =>
        refine iff_of_true ?_ ⟨by omega, rfl⟩
        rw [if_neg (by simp)] at hrs
        split_ifs at hrs
        all_goals
          cases hrs
          rfl
  rcases hp with ⟨hfl, rfl, -⟩ | ⟨rfl, hgn⟩
  · rw [if_neg (hif.not.1 hfl)]
    exact ⟨st, hfl, hrs⟩
  · rw [if_pos (hif.1 rfl)]
    exact ⟨t', hrs, hgn⟩

/-- `ExCreateHandle` puts the pointer into a free slot of a table that admits it, and leaves any other
table as it is. -/
theorem exCreateHandle_spec (ht : t.Ok) {p : Nat} (hp : p ≠ 0) (hft : t.GrowthFits) (room : Bool) :
    (¬ t.Admits room ∧ ∃ st, st ≠ .success ∧ t.exCreateHandle p room = some (t, .error st)) ∨
    (t.Admits room ∧ ∃ t' i, t.exCreateHandle p room = some (t', .ok (indexToHandle i)) ∧
      t.Placed i p t' ∧ t.SameKind t') := by
  have hsl : (¬ t.Admits room ∧ ∃ st, st ≠ .success ∧ t.expCreateHandle p room = some (t, .error st)) ∨
      t.Admits room ∧ ∃ t' i, t.expCreateHandle p room = some (t', .ok i) := by
    rw [expCreateHandle]
    cases hfr : t.freeIndex with
    | some i => exact .inr ⟨.inl (by rw [hfr]; rfl), _, i, rfl⟩
    | none =>
      by_cases hgr : t.growBy = 0
      · rw [if_pos hgr]
        refine .inl ⟨?_, .tooManyHandles, (fun h => by cases h), rfl⟩
        rintro (h | h)
        · rw [hfr] at h
          cases h
        · omega
      · rw [if_neg hgr]
        have hrs := resize_admits ht (Nat.pos_of_ne_zero hgr) hft room
        split at hrs
        · next hrm =>
            obtain ⟨t', hrs, hgn⟩ := hrs
            have hlength : t.capacity < t'.handleMap.length := by
              rw [hgn.ok.length]
              exact hgn.capacity
            rw [hrs]
            dsimp only
            rw [if_pos hlength]
            exact .inr ⟨.inr ⟨Nat.pos_of_ne_zero hgr, hrm⟩, _, _, rfl⟩
        · next hrm =>
            obtain ⟨st, hfl, hrs⟩ := hrs
            rw [hrs]
            refine .inl ⟨?_, st, hfl, ?_⟩
            · rintro (h | h)
              · rw [hfr] at h
                cases h
              · exact hrm h.2
            · cases st with
              | success => exact absurd rfl hfl
              | _ => rfl
  rw [exCreateHandle, if_neg hp]
  rcases hsl with ⟨hnt, st, hfl, hc⟩ | ⟨ha, t', i, hc⟩
  · rw [hc]
    exact .inl ⟨hnt, st, hfl, rfl⟩
  · right
    refine ⟨ha, t', i, by rw [hc]; rfl, ?_⟩
    obtain ⟨-, h | h⟩ | ⟨j, hj, hpl, hkn⟩ := expCreateHandle_cases ht hp hc
    · cases h
    · cases h
    · cases hj
      exact ⟨hpl, hkn⟩

/-- There is memory for a table like this one, for its slots, and for as many slots as it has grown
to. -/
def CanDuplicate (t : HandleTable) (tableRoom mapRoom resizeRoom : Bool) : Prop :=
  tableRoom = true ∧ (t.initialSize = 0 ∨ mapRoom = true) ∧
    (t.capacity = t.initialSize ∨ resizeRoom = true)

instance (t : HandleTable) (tableRoom mapRoom resizeRoom : Bool) :
    Decidable (t.CanDuplicate tableRoom mapRoom resizeRoom) := inferInstanceAs (Decidable (_ ∧ _))

/-- How `ExDuplicateHandleTable` gets its table: it is refused, it cannot be made large enough, or it
is there, without a handle. -/
theorem inherit_spec (ht : t.Sound) (tr mr rr : Bool) : (¬ t.CanDuplicate tr mr rr ∧
      ((∃ st, t.exCreateHandleTableInherit tr mr = some (.error st) ∧ st ≠ .success) ∨
        ∃ new new' st, t.exCreateHandleTableInherit tr mr = some (.ok new) ∧
          new.expResizeHandleTable t.capacity rr = some (new', st) ∧
          st ≠ .success)) ∨
    (t.CanDuplicate tr mr rr ∧ ∃ new new', t.exCreateHandleTableInherit tr mr = some (.ok new) ∧
        new.expResizeHandleTable t.capacity rr = some (new', .success) ∧
        new'.Ok ∧ new'.capacity = t.capacity ∧ new'.maxIndex = 0 ∧ t.SameKind new' ∧
        ∀ i, new'.entry i = none) := by
  have hlm := ht.initialSize_le_limit
  have hin := ht.initial
  have hcl := ht.limit
  have hsize := ht.size
  have hct : ¬ t.limit < t.initialSize := by omega
  by_cases hb : tr = true
  swap
  · refine .inl ⟨fun h => hb h.1, .inl ⟨.insufficientMemory, ?_, nofun⟩⟩
    rw [exCreateHandleTableInherit, exCreateHandleTable, if_pos (by simpa using hb)]
  by_cases hp : t.initialSize = 0 ∨ mr = true
  swap
  · rw [not_or] at hp
    refine .inl ⟨fun h => h.2.1.elim hp.1 hp.2, .inl ⟨.insufficientMemory, ?_, nofun⟩⟩
    rw [exCreateHandleTableInherit, exCreateHandleTable, if_neg (by simpa using hb)]
    rw [if_neg hp.1, if_pos (by simpa using hp.2)]
  obtain ⟨new, hc, hnc⟩ : ∃ new, t.exCreateHandleTableInherit tr mr = some (.ok new) ∧
        new.capacity = t.initialSize := by
    rw [exCreateHandleTableInherit, exCreateHandleTable, if_neg (by simpa using hb)]
    dsimp only
    by_cases hz : t.initialSize = 0
    · rw [if_pos hz]
      exact ⟨_, rfl, hz.symm⟩
    · have hft : ¬ blockItems t.initialSize < t.initialSize := by
        rw [blockItems_of_lt (by omega)]
        exact Nat.lt_irrefl _
      rw [if_neg hz, if_neg (by simpa using hp.resolve_left hz), if_neg hft]
      exact ⟨_, rfl, rfl⟩
  obtain ⟨hw, he, hnw⟩ := ok_exCreateHandleTable hc
  rw [if_neg hct] at hnw
  have hnn := resize_ne_none (t := new) hsize rr
  obtain ⟨⟨new', st⟩, hrs⟩ := Option.ne_none_iff_exists'.1 hnn
  have hrm : st = .success ↔ t.capacity = t.initialSize ∨ rr = true := by
    unfold expResizeHandleTable at hrs
    rw [hnc, hnw] at hrs
    by_cases hsm : t.capacity = t.initialSize
    · rw [if_pos hsm] at hrs
      cases hrs
      exact iff_of_true rfl (.inl hsm)
    · rw [if_neg hsm, if_neg (by omega)] at hrs
      cases hr : rr with
      | false =>
        rw [hr] at hrs
        cases hrs
        exact iff_of_false nofun (by simpa using hsm)
      | true =>
        rw [hr] at hrs
        refine iff_of_true ?_ (.inr rfl)
        rw [if_neg (by simp)] at hrs
        split_ifs at hrs
        all_goals
          cases hrs
          rfl
  by_cases hrd : t.capacity = t.initialSize ∨ rr = true
  · obtain rfl := hrm.2 hrd
    rcases inherit_resized ht hc hrs with hfl | ⟨hok, hcp, hx, hkn⟩
    · exact absurd rfl hfl
    · refine .inr ⟨⟨hb, hp, hrd⟩, new, new', hc, hrs, hok, hcp, hx, hkn, ?_⟩
      intro i
      obtain ⟨rfl, -⟩ | ⟨-, -, ⟨-, rfl⟩ | rfl⟩ := resize_cases hrs
      · exact he i
      · rw [entry_append_free (t := new) (by rw [← hw.length, List.take_length]), he]
      · rw [entry_take (t := new) rfl fun j _ => he j, he]
  · refine .inl ⟨fun h => hrd h.2.2, .inr ⟨new, new', st, hc, hrs, ?_⟩⟩
    exact fun h => hrd (hrm.1 h)

end Boron.Ex.HandleTable
