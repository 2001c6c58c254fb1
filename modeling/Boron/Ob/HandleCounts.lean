import Mathlib.Algebra.GroupWithZero.Nat
import Boron.Lib.Count
import Boron.Ob.Handles

/-! # Handle counts

`CountsRight` is what the counts of the objects say about the handle tables. Each function is read as
a change of the number of entries that refer to an object: `Counted s n` says that the counts of the
objects are right for `n o` entries on object `o`, also in the middle of a call.

`ObpDuplicateHandle` raises the count of the object it was given, also where the new entry refers to
another one; a run that does not come there keeps all counts right (`handleCounts_right`). -/

namespace Boron.Ob

open Ex Function List Option

/-! ## Entries -/

section

variable {α : Type} {β : α → Type} [DecidableEq α]

theorem sum_kerase (f : Sigma β → Nat) (a : α) (l : List (Sigma β)) :
    ((l.kerase a).map f).sum + ((l.dlookup a).elim 0 fun b => f ⟨a, b⟩) = (l.map f).sum := by
  induction l with
  | nil => rfl
  | cons x l ih =>
    obtain ⟨a', b⟩ := x
    by_cases h : a = a'
    · subst h
      rw [kerase_cons_eq (show a = (⟨a, b⟩ : Sigma β).1 from rfl), dlookup_cons_eq,
        map_cons, sum_cons, add_comm]
      rfl
    · rw [kerase_cons_ne h, dlookup_cons_ne l _ h, map_cons, map_cons,
        sum_cons, sum_cons, add_assoc, ih]

end

/-- The number of slots whose entry refers to an object. -/
def refs (slots : List Nat) (o : Nat) : Nat :=
  slots.countP fun x => x ≠ 0 ∧ (HandleItem.ofPointer x).addressBits = o

theorem refs_cons (x : Nat) (slots : List Nat) (o : Nat) :
    refs (x :: slots) o = refs slots o + refs [x] o := by
  simp only [refs, countP_cons, countP_nil, Nat.zero_add]

theorem refs_singleton {x : Nat} (hx : x ≠ 0) (o : Nat) : refs [x] o = if x / 8 = o then 1 else 0 := by
  simp only [refs, HandleItem.ofPointer, countP_cons, countP_nil, hx, ne_eq,
    not_false_eq_true, true_and, decide_eq_true_eq, Nat.zero_add]

theorem refs_zero (slots : List Nat) (o : Nat) : refs (0 :: slots) o = refs slots o := by
  simp [refs]

/-- The number of entries of a table that a test holds of, slot by slot. -/
theorem countP_entries (t : HandleTable) (f : Nat → Bool) {n : Nat} (hn : t.handleMap.length ≤ n) :
    (t.handleMap.countP fun x => x ≠ 0 ∧ f x = true) =
      ∑ i ∈ Finset.range n, ((t.entry i).any f).toNat := by
  unfold HandleTable.entry
  generalize t.handleMap = slots at hn ⊢
  induction slots generalizing n with
  | nil => simp
  | cons x slots ih =>
    obtain ⟨n, rfl⟩ : ∃ m, n = m + 1 := ⟨n - 1, by simp only [length_cons] at hn; omega⟩
    rw [Finset.sum_range_succ', countP_cons, ih (by simpa using hn)]
    simp only [List.getElem?_cons_succ, List.getElem?_cons_zero, Nat.add_left_cancel_iff]
    by_cases hx : x = 0
    · simp [hx]
    · have hne : (x != 0) = true := by simpa using hx
      cases hf : f x <;> simp [hx, hf, hne]

section

variable {t t' : HandleTable} {i x : Nat}

theorem refs_eq_sum (t : HandleTable) (o : Nat) {n : Nat} (hn : t.handleMap.length ≤ n) :
    refs t.handleMap o = ∑ i ∈ Finset.range n, ((t.entry i).any fun x => x / 8 = o).toNat := by
  rw [← countP_entries t _ hn]
  exact countP_congr fun x _ => decide_eq_true_iff.trans (by simp [HandleItem.ofPointer])

theorem refs_of_update {v : Option Nat} (h : t'.entry = update t.entry i v) (o : Nat) :
    refs t'.handleMap o + ((t.entry i).any fun x => x / 8 = o).toNat =
      refs t.handleMap o + (v.any fun x => x / 8 = o).toNat := by
  have hn : t.handleMap.length ≤ t.handleMap.length + t'.handleMap.length + i + 1 := by omega
  have hn' : t'.handleMap.length ≤ t.handleMap.length + t'.handleMap.length + i + 1 := by omega
  rw [refs_eq_sum t o hn, refs_eq_sum t' o hn', h]
  exact sum_update _ (fun e : Option Nat => (e.any fun x => x / 8 = o).toNat) t.entry
    (Finset.mem_range.2 (by omega)) v

/-- A pointer has come into a free slot. -/
theorem refs_placed (h : t.Placed i x t') (hx : x ≠ 0) (o : Nat) :
    refs t'.handleMap o = refs t.handleMap o + refs [x] o := by
  have hsm := refs_of_update h.entry o
  rw [h.free] at hsm
  rw [refs_singleton hx]
  by_cases ho : x / 8 = o
  · simpa [ho] using hsm
  · simpa [ho] using hsm

theorem refs_set_free {y : Nat} (hi : i < t.handleMap.length) (hfr : t.entry i = none) (o : Nat) :
    refs (t.handleMap.set i y) o = refs t.handleMap o + refs [y] o := by
  have hst : ({ t with handleMap := t.handleMap.set i y } : HandleTable).entry =
      update t.entry i (if y = 0 then none else some y) := HandleTable.entry_set hi rfl
  have hsm : refs (t.handleMap.set i y) o + ((t.entry i).any fun x => x / 8 = o).toNat =
      refs t.handleMap o + ((if y = 0 then none else some y).any fun x => x / 8 = o).toNat :=
    refs_of_update hst o
  rw [hfr] at hsm
  by_cases hy : y = 0
  · subst hy
    simpa [refs_zero, refs] using hsm
  · rw [refs_singleton hy]
    rw [if_neg hy] at hsm
    by_cases ho : y / 8 = o
    · simpa [ho] using hsm
    · simpa [ho] using hsm

/-- A pointer has left its slot. -/
theorem refs_deleted (hi : t.entry i = some x) (h : t'.entry = update t.entry i none)
    (o : Nat) : refs t'.handleMap o + refs [x] o = refs t.handleMap o := by
  have hsm := refs_of_update h o
  rw [hi] at hsm
  rw [refs_singleton (HandleTable.entry_eq_some.1 hi).2]
  by_cases ho : x / 8 = o
  · simpa [ho] using hsm
  · simpa [ho] using hsm

theorem refs_empty (h : ∀ i, t.entry i = none) (o : Nat) : refs t.handleMap o = 0 := by
  rw [refs_eq_sum t o le_rfl]
  simp [h]

/-- A filter has closed the entries it picks. -/
theorem refs_filtered {f : Nat → Bool}
    (h : ∀ j, t'.entry j = HandleTable.kept f (fun _ => true) (t.entry j)) (o : Nat) :
    refs t'.handleMap o + refs (t.handleMap.filter f) o = refs t.handleMap o := by
  have hn : t.handleMap.length ≤ t.handleMap.length + t'.handleMap.length := by omega
  have hn' : t'.handleMap.length ≤ t.handleMap.length + t'.handleMap.length := by omega
  have hfl : refs (t.handleMap.filter f) o =
      ∑ i ∈ Finset.range (t.handleMap.length + t'.handleMap.length),
        ((t.entry i).any fun x => x / 8 = o && f x).toNat := by
    rw [← countP_entries t _ hn, refs, countP_filter]
    refine countP_congr fun x _ => ?_
    simp only [HandleItem.ofPointer, Bool.and_eq_true, decide_eq_true_eq]
    exact (and_congr_left' decide_eq_true_iff).trans and_assoc
  rw [refs_eq_sum t o hn, refs_eq_sum t' o hn', hfl, ← Finset.sum_add_distrib]
  refine Finset.sum_congr rfl fun i _ => ?_
  rw [h i]
  cases t.entry i with
  | none => rfl
  | some x =>
    rw [HandleTable.kept, filter_some]
    cases hf : f x <;> by_cases ho : x / 8 = o <;> simp [hf, ho]

end

theorem addressBits_pointer (x : HandleItem) :
    (HandleItem.ofPointer x.pointer).addressBits = x.addressBits := by
  have hi := x.inherit.toNat_lt
  have hd := x.duplicate.toNat_lt
  simp only [HandleItem.ofPointer, HandleItem.pointer]
  omega

theorem pointer_ne_zero {x : HandleItem} (h : x.addressBits ≠ 0) : x.pointer ≠ 0 := by
  simp only [HandleItem.pointer]
  omega

/-- The counts with `k` entries more. -/
def ObjectHeader.count (h : ObjectHeader) (k : Int) : ObjectHeader :=
  { h with
    pointerCount := h.pointerCount + k
    handleCount := if h.type.maintainHandleCount then h.handleCount + k else h.handleCount }

namespace HandleSystem

variable {P : Type} [DecidableEq P] {s s' : HandleSystem P} {p : P} {t t' : HandleTable}
  {o x : Nat} {n : Nat → Nat} {h : ObjectHeader}

/-- The number of entries of all tables that refer to an object. -/
def entries (s : HandleSystem P) (o : Nat) : Nat :=
  (s.tables.entries.map fun e => refs e.2.handleMap o).sum

omit [DecidableEq P] in
theorem entries_congr (h : s'.tables = s.tables) : s'.entries = s.entries := by
  unfold entries
  rw [h]

theorem entries_insert (s : HandleSystem P) (p : P) (t : HandleTable) (o : Nat) :
    entries { s with tables := s.tables.insert p t } o +
      ((s.tables.lookup p).elim 0 fun t => refs t.handleMap o) = s.entries o + refs t.handleMap o := by
  have hsm : ((s.tables.entries.kerase p).map fun e => refs e.2.handleMap o).sum +
      ((s.tables.lookup p).elim 0 fun t => refs t.handleMap o) = s.entries o :=
    sum_kerase (fun e : Sigma fun _ : P => HandleTable => refs e.2.handleMap o) p s.tables.entries
  rw [entries, AList.entries_insert, map_cons, sum_cons]
  dsimp only
  omega

theorem entries_erase (s : HandleSystem P) (p : P) (o : Nat) :
    entries { s with tables := s.tables.erase p } o +
      ((s.tables.lookup p).elim 0 fun t => refs t.handleMap o) = s.entries o :=
  sum_kerase (fun e : Sigma fun _ : P => HandleTable => refs e.2.handleMap o) p s.tables.entries

theorem refs_le_entries (hp : s.tables.lookup p = some t) (o : Nat) :
    refs t.handleMap o ≤ s.entries o := by
  have h := s.entries_erase p o
  rw [hp] at h
  exact Nat.le.intro ((Nat.add_comm _ _).trans h)

/-! ## Counts -/

/-- The handle count of an object whose type maintains it is the number of entries that refer to it,
and each of these is one of its references. -/
structure CountsRight (s : HandleSystem P) : Prop where
  handles : ∀ o h, s.object o = some h → h.type.maintainHandleCount = true →
    h.handleCount = s.entries o
  pointers : ∀ o h, s.object o = some h → h.pointerCount = s.entries o + s.held o
  live : ∀ o, 0 < s.entries o → (s.object o).isSome

/-- The counts are right for `n o` entries on object `o`. -/
structure Counted (s : HandleSystem P) (n : Nat → Nat) : Prop where
  handles : ∀ o h, s.object o = some h → h.type.maintainHandleCount = true → h.handleCount = n o
  pointers : ∀ o h, s.object o = some h → h.pointerCount = n o + s.held o
  absent : ∀ o, s.object o = none → n o = 0 ∧ s.held o = 0
  null : s.object 0 = none

section

omit [DecidableEq P]

theorem Counted.countsRight (hc : Counted s s.entries) : s.CountsRight := by
  refine ⟨hc.handles, hc.pointers, fun o ho => ?_⟩
  cases hs : s.object o with
  | some h => rfl
  | none =>
    have hz := (hc.absent o hs).1
    omega

variable {n' : Nat → Nat}

theorem Counted.congr (hc : Counted s n) (hb : s'.object = s.object)
    (hh : s'.held = s.held) (hn : ∀ o, n' o = n o) : Counted s' n' := by
  obtain rfl : n' = n := funext hn
  constructor
  · rw [hb]
    exact hc.handles
  · rw [hb, hh]
    exact hc.pointers
  · rw [hb, hh]
    exact hc.absent
  · rw [hb]
    exact hc.null

theorem Counted.change (hc : Counted s n) (ho : o ≠ 0) (hb : s'.object = update s.object o (some h))
    (hh : ∀ o', o' ≠ o → s'.held o' = s.held o') (hn : ∀ o', o' ≠ o → n' o' = n o')
    (hhn : h.type.maintainHandleCount = true → h.handleCount = n' o)
    (hp : h.pointerCount = n' o + s'.held o) : Counted s' n' := by
  constructor
  · intro o' h' ho' hm
    rw [hb] at ho'
    by_cases he : o' = o
    · subst he
      rw [update_self] at ho'
      cases ho'
      exact hhn hm
    · rw [update_of_ne he] at ho'
      rw [hn o' he]
      exact hc.handles o' h' ho' hm
  · intro o' h' ho'
    rw [hb] at ho'
    by_cases he : o' = o
    · subst he
      rw [update_self] at ho'
      cases ho'
      exact hp
    · rw [update_of_ne he] at ho'
      rw [hn o' he, hh o' he]
      exact hc.pointers o' h' ho'
  · intro o' ho'
    rw [hb] at ho'
    by_cases he : o' = o
    · subst he
      rw [update_self] at ho'
      cases ho'
    · rw [update_of_ne he] at ho'
      rw [hn o' he, hh o' he]
      exact hc.absent o' ho'
  · rw [hb, update_of_ne ho.symm]
    exact hc.null

theorem Counted.ne_zero (hc : Counted s n) (ho : s.object o = some h) : o ≠ 0 := by
  rintro rfl
  rw [hc.null] at ho
  cases ho

theorem Counted.count {k : Int} (hc : Counted s n) (ho : s.object o = some h)
    (hn : ∀ o', o' ≠ o → n' o' = n o') (hk : (n' o : Int) = n o + k) :
    Counted (s.setObject o (h.count k)) n' := by
  refine hc.change (hc.ne_zero ho) rfl (fun _ _ => rfl) hn (fun hm => ?_) ?_
  · have hold := hc.handles o h ho hm
    have hmn : h.type.maintainHandleCount = true := hm
    rw [ObjectHeader.count, hk, ← hold, if_pos hmn]
  · have hold := hc.pointers o h ho
    change h.pointerCount + k = n' o + s.held o
    omega

/-! ## References and handle counts -/

theorem setObject_self (ho : s.object o = some h) : s.setObject o h = s := by
  unfold setObject
  rw [← ho, update_eq_self]

theorem setObject_setObject (h' : ObjectHeader) :
    (s.setObject o h).setObject o h' = s.setObject o h' := by
  unfold setObject
  rw [update_idem]

theorem object_setObject : (s.setObject o h).object o = some h := update_self ..

theorem addHandleCount_eq (ho : s.object o = some h) (k : Int) :
    s.addHandleCount o k = some (s.setObject o { h with
      handleCount := if h.type.maintainHandleCount then h.handleCount + k else h.handleCount }) := by
  rw [addHandleCount, ho, map_some]
  split
  · rfl
  · rw [setObject_self ho]

theorem opened_eq (ho : s.object o = some h) :
    ((s.obReferenceObjectByPointer o).bind fun s => s.addHandleCount o 1) =
      some (s.setObject o (h.count 1)) := by
  rw [obReferenceObjectByPointer, ho, map_some, bind_some,
    addHandleCount_eq object_setObject, setObject_setObject]
  rfl

theorem obpCloseHandle_cases (hs : s.obpCloseHandle x = some s') :
    ∃ h, s.object (x / 8) = some h ∧ s' = s.setObject (x / 8) (h.count (-1)) := by
  unfold obpCloseHandle HandleItem.ofPointer at hs
  dsimp only at hs
  cases ho : s.object (x / 8) with
  | none =>
    rw [addHandleCount, ho] at hs
    cases hs
  | some h =>
    rw [addHandleCount_eq ho, bind_some, obDereferenceObject, object_setObject, bind_some] at hs
    by_cases hpos : h.pointerCount < 1
    · rw [if_pos hpos] at hs
      cases hs
    · rw [if_neg hpos] at hs
      cases hs
      exact ⟨h, rfl, setObject_setObject _⟩

end

/-- What a call on the objects leaves alone. -/
def OnlyObjects (s s' : HandleSystem P) : Prop := s'.tables = s.tables ∧ s'.held = s.held

omit [DecidableEq P] in
theorem Counted.closeHandle (hc : Counted s n) (hx : x ≠ 0) (hpos : refs [x] (x / 8) ≤ n (x / 8))
    (hs : s.obpCloseHandle x = some s') :
    Counted s' (fun o => n o - refs [x] o) ∧ OnlyObjects s s' := by
  obtain ⟨h, ho, rfl⟩ := obpCloseHandle_cases hs
  rw [refs_singleton hx, if_pos rfl] at hpos
  refine ⟨hc.count ho (fun o' hne => ?_) ?_, rfl, rfl⟩
  · rw [refs_singleton hx, if_neg hne.symm, Nat.sub_zero]
  · rw [refs_singleton hx, if_pos rfl]
    omega

omit [DecidableEq P] in
theorem Counted.closeSlots {slots : List Nat} (hc : Counted s n) (hle : ∀ o, refs slots o ≤ n o)
    (hs : HandleSystem.closeSlots slots s = some s') :
    Counted s' (fun o => n o - refs slots o) ∧ OnlyObjects s s' := by
  induction slots generalizing s n with
  | nil =>
    cases hs
    exact ⟨hc, rfl, rfl⟩
  | cons x slots ih =>
    rw [HandleSystem.closeSlots] at hs
    split at hs
    · next hx =>
        subst hx
        simp only [refs_zero] at hle ⊢
        exact ih hc hle hs
    · next hx =>
        obtain ⟨s₁, hcl, hrs⟩ := bind_eq_some_iff.1 hs
        have hp : ∀ o, refs (x :: slots) o = refs slots o + refs [x] o := refs_cons x slots
        have hon : refs [x] (x / 8) ≤ n (x / 8) := by
          have := hle (x / 8)
          rw [hp] at this
          omega
        obtain ⟨hc₁, hb, hh⟩ := hc.closeHandle hx hon hcl
        obtain ⟨hc₂, hb', hh'⟩ := ih hc₁ (fun o => by
          have := hle o
          rw [hp] at this
          omega) hrs
        refine ⟨hc₂.congr rfl rfl fun o => ?_, hb'.trans hb, hh'.trans hh⟩
        rw [hp]
        omega

/-! ## Tables -/

/-- The tables are in order, and can grow. -/
def TablesOk (s : HandleSystem P) : Prop :=
  ∀ p t, s.tables.lookup p = some t → t.Sound ∧ 0 < t.growBy

theorem TablesOk.insert (ht : s.TablesOk) (hsn : t.Sound) (hgr : 0 < t.growBy) :
    TablesOk { s with tables := s.tables.insert p t } := by
  intro q u hq
  by_cases hp : q = p
  · subst hp
    rw [AList.lookup_insert] at hq
    cases hq
    exact ⟨hsn, hgr⟩
  · rw [AList.lookup_insert_ne hp] at hq
    exact ht q u hq

theorem TablesOk.erase (ht : s.TablesOk) : TablesOk { s with tables := s.tables.erase p } := by
  intro q u hq
  by_cases hp : q = p
  · subst hp
    rw [AList.lookup_erase] at hq
    cases hq
  · rw [AList.lookup_erase_ne hp] at hq
    exact ht q u hq

theorem TablesOk.congr (ht : s.TablesOk) (h : s'.tables = s.tables) : s'.TablesOk := by
  intro q u hq
  rw [h] at hq
  exact ht q u hq

/-- The invariant outside of every call. -/
structure Inv (s : HandleSystem P) : Prop where
  counted : Counted s s.entries
  tablesOk : TablesOk s

/-- The rule for a call on the table of `p` that ends with table `t` there. -/
theorem Inv.store {s₁ : HandleSystem P} (hi : Inv s) (hc : Counted s₁ n) (hon : OnlyObjects s s₁)
    (hsn : t.Sound) (hgr : 0 < t.growBy)
    (hn : ∀ o, n o + ((s.tables.lookup p).elim 0 fun t => refs t.handleMap o) =
      s.entries o + refs t.handleMap o) :
    Inv { s₁ with tables := s₁.tables.insert p t } := by
  refine ⟨hc.congr rfl rfl fun o => ?_, (hi.tablesOk.congr hon.1).insert hsn hgr⟩
  have hsm := s₁.entries_insert p t o
  rw [hon.1, entries_congr hon.1] at hsm
  have := hn o
  rw [hon.1]
  omega

/-! ## Calls on one table -/

variable {handle : Nat} {room : Bool} {status : HandleStatus}

theorem exDeleteHandle_cases (ht : t.Sound)
    (hs : t.exDeleteHandle handle (fun _ => true) room = some (t', status)) :
    (status = .success ∧ ∃ i x, t.handles handle = some x ∧ t.entry i = some x ∧
      t'.entry = update t.entry i none ∧ t'.Sound ∧ t.SameKind t') ∨
    status ≠ .success ∧ t' = t := by
  unfold HandleTable.exDeleteHandle at hs
  split at hs
  · cases hs
    exact .inr ⟨fun h => (nomatch h), rfl⟩
  · next hcr =>
      split at hs
      · cases hs
        exact .inr ⟨fun h => (nomatch h), rfl⟩
      · split at hs
        · cases hs
        · next x hgt =>
            split at hs
            · cases hs
              exact .inr ⟨fun h => (nomatch h), rfl⟩
            · next hx =>
                rw [Bool.not_true, if_neg Bool.false_ne_true] at hs
                obtain ⟨t₁, hdl, heq⟩ := map_eq_some_iff.1 hs
                cases heq
                have he := HandleTable.entry_eq_some.2 ⟨hgt, hx⟩
                obtain ⟨hc, hkn⟩ :=
                  HandleTable.expDeleteHandle_cases ht.toOk he hdl
                refine .inl ⟨rfl, _, x, ?_, he, hc.entry, ht.of_ok hc.ok hkn, hkn⟩
                rw [HandleTable.handles, if_pos (by simpa using hcr)]
                exact he

theorem Inv.obClose (hi : Inv s) (hs : s.obClose p handle room = some (s', status)) : Inv s' := by
  obtain ⟨t, hp, hs⟩ := bind_eq_some_iff.1 hs
  obtain ⟨hsn, hgr⟩ := hi.tablesOk p t hp
  cases hdl : t.exDeleteHandle handle (fun _ => true) room with
  | none =>
    rw [hdl] at hs
    cases hs
  | some r =>
    obtain ⟨t', status'⟩ := r
    rw [hdl] at hs
    obtain ⟨rfl, i, x, hh, he, hu, hsn', hkn⟩ | ⟨hne, rfl⟩ :=
      exDeleteHandle_cases hsn hdl
    · dsimp only at hs
      obtain ⟨s₁, hcl, heq⟩ := map_eq_some_iff.1 hs
      cases heq
      rw [hh, bind_some] at hcl
      have hrf := refs_deleted he hu
      have hx := (HandleTable.entry_eq_some.1 he).2
      have hle := refs_le_entries hp
      obtain ⟨hc, hon⟩ := hi.counted.closeHandle hx (by
        have := hrf (x / 8)
        have := hle (x / 8)
        omega) hcl
      refine hi.store hc hon hsn' (hkn.growBy ▸ hgr) fun o => ?_
      have := hrf o
      have := hle o
      rw [hp, elim_some]
      omega
    · have hs' : some (({ s with tables := s.tables.insert p t' } : HandleSystem P), status') =
          some (s', status) := by
        cases status' with
        | success => exact absurd rfl hne
        | _ => exact hs
      cases hs'
      refine hi.store hi.counted ⟨rfl, rfl⟩ hsn hgr fun o => ?_
      rw [hp, elim_some]

theorem Inv.obpInsertObject (hi : Inv s) (hh : s.held o ≠ 0) {ni dof : Bool} {r : HandleResult}
    (hs : s.obpInsertObject p o ni dof room = some (s', r)) : Inv s' := by
  obtain ⟨t, hp, hs⟩ := bind_eq_some_iff.1 hs
  obtain ⟨hsn, hgr⟩ := hi.tablesOk p t hp
  cases ho : s.object o with
  | none => exact absurd (hi.counted.absent o ho).2 hh
  | some h =>
    have hne := hi.counted.ne_zero ho
    have hpt : (HandleItem.mk (!ni) dof o).pointer ≠ 0 :=
      pointer_ne_zero hne
    obtain ⟨s₁, hrf, hs⟩ := bind_eq_some_iff.1 hs
    have hrf' := hrf
    rw [obReferenceObjectByPointer, ho, map_some] at hrf'
    cases hrf'
    dsimp only at hs
    rw [HandleTable.exCreateHandle, if_neg hpt] at hs
    cases hcr : t.expCreateHandle (HandleItem.mk (!ni) dof o).pointer room with
    | none =>
      rw [hcr] at hs
      cases hs
    | some made =>
      obtain ⟨t', res⟩ := made
      rw [hcr] at hs
      obtain ⟨rfl, hre⟩ | ⟨i, rfl, hpl, hkn⟩ :=
        HandleTable.expCreateHandle_cases hsn.toOk hpt hcr
      · -- the reference is taken back
        obtain ⟨status, rfl⟩ : ∃ status, res = .error status :=
          hre.elim (fun h => ⟨_, h⟩) fun h => ⟨_, h⟩
        obtain ⟨s₂, hdr, heq⟩ := map_eq_some_iff.1 hs
        cases heq
        rw [obDereferenceObject, object_setObject, bind_some] at hdr
        split at hdr
        · cases hdr
        · cases hdr
          have hb : (s.setObject o { h with pointerCount := h.pointerCount + 1 }).setObject o
              { h with pointerCount := h.pointerCount + 1 - 1 } = s := by
            rw [setObject_setObject, Int.add_sub_cancel, setObject_self ho]
          rw [hb]
          refine hi.store hi.counted ⟨rfl, rfl⟩ hsn hgr fun o => ?_
          rw [hp, elim_some]
      · obtain ⟨s₂, hcount, heq⟩ := map_eq_some_iff.1 hs
        cases heq
        have hon := opened_eq ho
        rw [hrf, bind_some, hcount] at hon
        cases hon
        have hbt : (HandleItem.mk (!ni) dof o).pointer / 8 = o :=
          addressBits_pointer _
        have hrs := refs_singleton hpt
        rw [hbt] at hrs
        have hc : Counted (s.setObject o (h.count 1)) fun o' =>
            s.entries o' + refs [(HandleItem.mk (!ni) dof o).pointer] o' := by
          refine hi.counted.count ho (fun o' hne => ?_) ?_
          · rw [hrs, if_neg hne.symm, Nat.add_zero]
          · rw [hrs, if_pos rfl]
            rfl
        refine hi.store hc ⟨rfl, rfl⟩ (hsn.of_ok hpl.ok hkn) (hkn.growBy ▸ hgr) fun o' => ?_
        rw [hp, elim_some, refs_placed hpl hpt]
        omega

theorem Inv.obKillHandleTable (hi : Inv s) (hs : s.obKillHandleTable p = some s') : Inv s' := by
  obtain ⟨t, hp, hs⟩ := bind_eq_some_iff.1 hs
  obtain ⟨s₁, hcl, rfl⟩ := map_eq_some_iff.1 hs
  obtain ⟨hc, hb, hh⟩ := hi.counted.closeSlots (refs_le_entries hp) hcl
  refine ⟨hc.congr rfl rfl fun o => ?_, (hi.tablesOk.congr hb).erase⟩
  have hsm := s₁.entries_erase p o
  rw [hb, hp, elim_some, entries_congr hb] at hsm
  rw [hb]
  omega

/-! ## Filtering a table -/

theorem sameKind_exDeleteHandle {kill : Nat → Bool} (ht : t.Sound) (hs : t.exDeleteHandle handle kill room = some (t', status)) :
    t.SameKind t' := by
  unfold HandleTable.exDeleteHandle at hs
  split at hs
  · cases hs
    exact .refl t
  · split at hs
    · cases hs
      exact .refl t
    · split at hs
      · cases hs
      · next x hgt =>
          split at hs
          · cases hs
            exact .refl t
          · next hx =>
              split at hs
              · cases hs
                exact .refl t
              · obtain ⟨t₁, hdl, heq⟩ := map_eq_some_iff.1 hs
                cases heq
                exact (HandleTable.expDeleteHandle_cases ht.toOk
                  (HandleTable.entry_eq_some.2 ⟨hgt, hx⟩) hdl).2

theorem sameKind_filterLoop {fil kill : Nat → Bool} {room : Nat → Bool} {fuel i : Nat}
    (ht : t.Sound) (hs : HandleTable.filterLoop fil kill room fuel t i = some t') :
    t.SameKind t' := by
  induction fuel generalizing t i with
  | zero =>
    obtain rfl := some.inj hs
    exact .refl t
  | succ fuel ih =>
    rw [HandleTable.filterLoop] at hs
    split at hs
    · split at hs
      · cases hs
      · split at hs
        · exact ih ht hs
        · split at hs
          · split at hs
            · cases hs
            · next hdl =>
                exact (sameKind_exDeleteHandle ht hdl).trans
                  (ih (HandleTable.sound_exDeleteHandle ht hdl).1 hs)
          · exact ih ht hs
    · obtain rfl := some.inj hs
      exact .refl t

theorem Inv.osCloseAllUninheritableHandles (hi : Inv s) {room : Nat → Bool}
    (hs : s.osCloseAllUninheritableHandles p room = some s') : Inv s' := by
  obtain ⟨t, hp, hs⟩ := bind_eq_some_iff.1 hs
  obtain ⟨hsn, hgr⟩ := hi.tablesOk p t hp
  obtain ⟨t', hfl, hs⟩ := bind_eq_some_iff.1 hs
  obtain ⟨s₁, hcl, rfl⟩ := map_eq_some_iff.1 hs
  have hpos : 0 < t.capacity := by
    by_contra hz
    have hnn : t.handleMap[0]? = none := List.getElem?_eq_none (by rw [hsn.length]; omega)
    rw [HandleTable.exFilterHandleTable, HandleTable.filterLoop, if_pos (Nat.zero_le _), hnn]
      at hfl
    cases hfl
  obtain ⟨t₁, hfl', hok, -, he⟩ : ∃ t₁, HandleTable.filterLoop
      obpCloseAllUninheritableHandlesFilter (fun _ => true) room (t.maxIndex + 1) t 0 = some t₁ ∧
      t₁.Ok ∧ t₁.limit = t.limit ∧ ∀ j, t₁.entry j = if 0 ≤ j then HandleTable.kept
        obpCloseAllUninheritableHandlesFilter (fun _ => true) (t.entry j) else t.entry j :=
    HandleTable.filterLoop_spec room 0 hsn.toOk hpos (by omega) fun h => absurd h (by omega)
  obtain rfl : t₁ = t' := some.inj (hfl'.symm.trans hfl)
  have hkn := sameKind_filterLoop hsn hfl'
  have hrf : ∀ o, refs t₁.handleMap o +
      refs (t.handleMap.filter obpCloseAllUninheritableHandlesFilter) o = refs t.handleMap o :=
    refs_filtered fun j => by rw [he j, if_pos (Nat.zero_le j)]
  have hle := refs_le_entries hp
  obtain ⟨hc, hon⟩ := hi.counted.closeSlots (fun o => by
    have := hrf o
    have := hle o
    omega) hcl
  refine hi.store hc hon (hsn.of_ok hok hkn) (hkn.growBy ▸ hgr) fun o => ?_
  have := hrf o
  have := hle o
  rw [hp, elim_some]
  omega

/-! ## Duplicating a table -/

/-- The call for this entry puts no new object into its place, or no type concerned maintains handle
counts. -/
def KeepsCount (s : HandleSystem P) (openReason : OpenReason) (answer : DuplicateAnswer) (x : Nat) :
    Prop :=
  ∀ h new type, s.object (x / 8) = some h → (HandleItem.ofPointer x).duplicate = true →
    openReason = .duplicateHandle → h.type.hasDuplicate = true → answer = some (new, type) →
    h.type.maintainHandleCount = false ∧ type.maintainHandleCount = false

/-- Objects that are there stay there, with their type. -/
def SameTypes (s s' : HandleSystem P) : Prop :=
  ∀ o h, s.object o = some h → ∃ h', s'.object o = some h' ∧ h'.type = h.type

section

omit [DecidableEq P]

theorem SameTypes.refl (s : HandleSystem P) : SameTypes s s := fun _ h ho => ⟨h, ho, rfl⟩

theorem SameTypes.setObject {h' : ObjectHeader} (ho : ∀ h, s.object o = some h → h'.type = h.type) :
    SameTypes s (s.setObject o h') := by
  intro o' a ha
  by_cases he : o' = o
  · subst he
    exact ⟨h', object_setObject, ho a ha⟩
  · exact ⟨a, (update_of_ne he ..).trans ha, rfl⟩

theorem KeepsCount.mono {or : OpenReason} {ans : DuplicateAnswer}
    (hk : s.KeepsCount or ans x) (hts : SameTypes s s')
    (ho : (s.object (x / 8)).isSome) : s'.KeepsCount or ans x := by
  obtain ⟨h₀, ho₀⟩ := isSome_iff_exists.1 ho
  intro h new type hs hp hrs hhas ha
  obtain ⟨h', hs', hy⟩ := hts _ h₀ ho₀
  obtain rfl : h' = h := some.inj (hs'.symm.trans hs)
  rw [hy] at hhas ⊢
  exact hk h₀ new type ho₀ hp hrs hhas ha

theorem Counted.duplicateHandle {or : OpenReason} {ans : DuplicateAnswer} {y : Nat}
    (hc : Counted s n) (hx : x ≠ 0) (hk : s.KeepsCount or ans x)
    (hs : s.obpDuplicateHandle or ans x = some (s', y)) :
    Counted s' (fun o => n o + refs [y] o) ∧ OnlyObjects s s' ∧ SameTypes s s' := by
  unfold obpDuplicateHandle at hs
  dsimp only at hs
  split at hs
  · -- not inherited
    cases hs
    exact ⟨hc.congr rfl rfl fun o => refs_zero [] o ▸ rfl, ⟨rfl, rfl⟩, .refl s⟩
  · obtain ⟨h, ho, hs⟩ := bind_eq_some_iff.1 hs
    have ho : s.object (x / 8) = some h := ho
    split at hs
    · -- another entry for the same object
      obtain ⟨s₁, hon, heq⟩ := map_eq_some_iff.1 hs
      cases heq
      have hod := opened_eq ho
      cases hod.symm.trans hon
      refine ⟨hc.count ho (fun o' hne => ?_) ?_, ⟨rfl, rfl⟩, .setObject fun a ha => ?_⟩
      · rw [refs_singleton hx, if_neg hne.symm, Nat.add_zero]
      · rw [refs_singleton hx, if_pos rfl]
        rfl
      · rw [ho] at ha
        rw [← some.inj ha]
        rfl
    · -- an entry for a new object
      next new type han =>
        split at han
        · next hcn =>
            obtain ⟨hold, hw⟩ := hk h new type ho hcn.1 hcn.2.1 hcn.2.2 han
            obtain ⟨s₁, hmk, heq⟩ := map_eq_some_iff.1 hs
            cases heq
            obtain ⟨s₂, hal, hcount⟩ := bind_eq_some_iff.1 hmk
            unfold obpAllocateObject at hal
            split at hal
            · cases hal
            · next hfr =>
                cases hal
                have hnn : s.object new = none := by
                  cases hn : s.object new with
                  | none => rfl
                  | some a => exact absurd (.inr (by rw [hn]; rfl)) hfr
                have hne : new ≠ 0 := fun h => hfr (.inl h)
                have hother : x / 8 ≠ new := by
                  rintro rfl
                  rw [hnn] at ho
                  cases ho
                have hsm : (s.setObject new ⟨type, 1, 0⟩).object (x / 8) = some h :=
                  (update_of_ne hother ..).trans ho
                have hcount' : some (s.setObject new ⟨type, 1, 0⟩) = some s' := by
                  rw [← hcount]
                  unfold addHandleCount
                  rw [show (HandleItem.ofPointer x).addressBits = x / 8 from rfl, hsm,
                    map_some, hold, if_neg Bool.false_ne_true]
                cases hcount'
                have hp : ({ HandleItem.ofPointer x with addressBits := new } :
                    HandleItem).pointer ≠ 0 := pointer_ne_zero hne
                have hb : ({ HandleItem.ofPointer x with addressBits := new } :
                    HandleItem).pointer / 8 = new := addressBits_pointer _
                have hrf := refs_singleton hp
                rw [hb] at hrf
                obtain ⟨hz, hh⟩ := hc.absent new hnn
                refine ⟨hc.change hne rfl (fun _ _ => rfl) (fun o' ho' => ?_) (fun hm => ?_) ?_,
                  ⟨rfl, rfl⟩, .setObject fun a ha => ?_⟩
                · rw [hrf, if_neg ho'.symm, Nat.add_zero]
                · exact absurd (hw.symm.trans hm) Bool.false_ne_true
                · rw [hrf, if_pos rfl, hz]
                  change (1 : Int) = ((0 + 1 : Nat) : Int) + (s.held new : Int)
                  rw [hh]
                  rfl
                · rw [hnn] at ha
                  cases ha
        · cases han

end

variable {new : HandleTable}

omit [DecidableEq P] in
theorem Counted.duplicateLoop {or : OpenReason} {ans : Nat → DuplicateAnswer}
    {rou i : Nat} {r : HandleSystem P × HandleTable}
    (ht : t.Sound) (hpos : 0 < t.capacity) (hw : new.Ok) (hp : new.capacity = t.capacity)
    (hmx : new.maxIndex ≤ i) (hfr : ∀ j, i ≤ j → new.entry j = none)
    (hrn : i + rou ≤ t.maxIndex + 1)
    (hc : Counted s fun o => n o + refs new.handleMap o)
    (hlv : ∀ j x, t.entry j = some x → (s.object (x / 8)).isSome)
    (hk : ∀ j x, t.entry j = some x → s.KeepsCount or (ans j) x)
    (hs : HandleSystem.duplicateLoop or ans t rou i new s = some r) :
    (Counted r.1 fun o => n o + refs r.2.handleMap o) ∧ OnlyObjects s r.1 ∧ r.2.Ok ∧
      new.SameKind r.2 := by
  induction rou generalizing i new s with
  | zero =>
    cases hs
    exact ⟨hc, ⟨rfl, rfl⟩, hw, .refl new⟩
  | succ rou ih =>
    have hi : i < t.capacity := by
      have := ht.max
      omega
    obtain ⟨x, hgt⟩ := ht.entry_of_lt hi
    rw [HandleSystem.duplicateLoop, hgt] at hs
    dsimp only at hs
    split at hs
    · exact ih hw hp (by omega) (fun j hj => hfr j (by omega)) (by omega) hc hlv hk hs
    · next hx =>
        have hil : i < new.handleMap.length := by
          rw [hw.length, hp]
          exact hi
        rw [if_pos hil] at hs
        obtain ⟨⟨s₁, y⟩, hdp, hrs⟩ := bind_eq_some_iff.1 hs
        have he := HandleTable.entry_eq_some.2 ⟨hgt, hx⟩
        obtain ⟨hc₁, hon, hy⟩ := hc.duplicateHandle hx (hk i x he) hdp
        have hst : ({ new with
            handleMap := new.handleMap.set i y
            maxIndex := if y = 0 then new.maxIndex else i } : HandleTable).entry =
              update new.entry i (if y = 0 then none else some y) :=
          HandleTable.entry_set hil rfl
        have hrf : ∀ o, refs (new.handleMap.set i y) o = refs new.handleMap o + refs [y] o :=
          refs_set_free hil (hfr i le_rfl)
        obtain ⟨hc₂, hon', hok, hkn⟩ := ih (hw.setSlot (hp ▸ hi) hmx) hp
          (by dsimp only; split <;> omega) (fun j hj => by
            rw [hst, update_of_ne (by omega)]
            exact hfr j (by omega)) (by omega)
          (hc₁.congr rfl rfl fun o => by rw [hrf, Nat.add_assoc])
          (fun j x hj => by
            obtain ⟨h, ho⟩ := isSome_iff_exists.1 (hlv j x hj)
            obtain ⟨h', ho', -⟩ := hy _ h ho
            rw [ho']
            rfl)
          (fun j x hj => (hk j x hj).mono hy (hlv j x hj)) hrs
        exact ⟨hc₂, ⟨hon'.1.trans hon.1, hon'.2.trans hon.2⟩, hok, hkn.growBy,
          hkn.initialSize, hkn.limit⟩

theorem entry_resized {new' : HandleTable} {m : Nat} (hok : new.Ok) (he : ∀ i, new.entry i = none)
    (hs : new.expResizeHandleTable m room = some (new', status)) (i : Nat) : new'.entry i = none := by
  obtain ⟨rfl, -⟩ | ⟨-, -, ⟨-, rfl⟩ | rfl⟩ := HandleTable.resize_cases hs
  · exact he i
  · rw [HandleTable.entry_append_free (t := new) (by rw [← hok.length, take_length]), he]
  · rw [HandleTable.entry_take (t := new) rfl fun j _ => he j, he]

theorem Inv.live (hi : Inv s) (hp : s.tables.lookup p = some t) {j : Nat} (hj : t.entry j = some x) :
    (s.object (x / 8)).isSome := by
  cases ho : s.object (x / 8) with
  | some h => rfl
  | none =>
    have hz := (hi.counted.absent _ ho).1
    obtain ⟨hgt, hx⟩ := HandleTable.entry_eq_some.1 hj
    have hpos : 0 < refs t.handleMap (x / 8) :=
      countP_pos_iff.2 ⟨x, mem_of_getElem? hgt, by simp [hx, HandleItem.ofPointer]⟩
    have := refs_le_entries hp (x / 8)
    omega

theorem Inv.obDuplicateHandleTable (hi : Inv s) {q : P} {or : OpenReason}
    {ans : Nat → DuplicateAnswer} {tr mr rr : Bool}
    (hq : s.tables.lookup q = none)
    (hk : ∀ t, s.tables.lookup p = some t → ∀ i x, t.entry i = some x → s.KeepsCount or (ans i) x)
    (hs : s.obDuplicateHandleTable q p or ans tr mr rr = some (s', status)) : Inv s' := by
  obtain ⟨t, hp, hs⟩ := bind_eq_some_iff.1 hs
  obtain ⟨hsn, hgr⟩ := hi.tablesOk p t hp
  cases hcr : t.exCreateHandleTableInherit tr mr with
  | none =>
    rw [hcr] at hs
    cases hs
  | some made =>
    rw [hcr] at hs
    cases made with
    | error status' =>
      cases hs
      exact hi
    | ok new =>
      dsimp only at hs
      cases hrs : new.expResizeHandleTable t.capacity rr with
      | none =>
        rw [hrs] at hs
        cases hs
      | some res =>
        obtain ⟨new', status'⟩ := res
        rw [hrs] at hs
        by_cases hst : status' = .success
        swap
        · have hs' : some (s, status') = some (s', status) := by
            cases status' with
            | success => exact absurd rfl hst
            | _ => exact hs
          cases hs'
          exact hi
        · subst hst
          dsimp only at hs
          obtain hne | ⟨hok, hcp, hx, hkn⟩ :=
            HandleTable.inherit_resized hsn hcr hrs
          · exact absurd rfl hne
          · rw [if_pos hcp] at hs
            obtain ⟨r, hlp, heq⟩ := map_eq_some_iff.1 hs
            cases heq
            have hpos : 0 < t.capacity := by
              by_contra hz
              have hnn : t.handleMap[0]? = none :=
                List.getElem?_eq_none (by rw [hsn.length]; omega)
              rw [HandleSystem.duplicateLoop, hnn] at hlp
              cases hlp
            obtain ⟨hw, he, -⟩ := HandleTable.ok_exCreateHandleTable hcr
            have hfr := entry_resized hw he hrs
            have hsr : Counted s fun o => s.entries o + refs new'.handleMap o :=
              hi.counted.congr rfl rfl fun o => by rw [refs_empty hfr, Nat.add_zero]
            obtain ⟨hc, hon, hok', hkn'⟩ := Counted.duplicateLoop hsn hpos hok hcp
              (Nat.le_of_eq hx) (fun j _ => hfr j) (by omega) hsr
              (fun j x hj => hi.live hp hj) (fun j x hj => hk t hp j x hj) hlp
            have ha := hkn.trans hkn'
            refine hi.store hc hon (hsn.of_ok hok' ha) (ha.growBy ▸ hgr) fun o => ?_
            rw [hq, elim_none, Nat.add_zero]

/-! ## Runs -/

/-- No fork has a `Duplicate` method put a new object into the place of one where either's type
maintains handle counts. -/
def KeepsCounts (s : HandleSystem P) : HandleAction P → Prop
  | .duplicateTable _ p openReason answer _ _ _ =>
    ∀ t, s.tables.lookup p = some t → ∀ i x, t.entry i = some x →
      s.KeepsCount openReason (answer i) x
  | _ => True

theorem inv_start : Inv (start : HandleSystem P) := by
  refine ⟨⟨nofun, nofun, fun o _ => ⟨rfl, rfl⟩, rfl⟩, fun p t hp => ?_⟩
  rw [start, AList.lookup_empty] at hp
  cases hp

theorem Inv.step {a : HandleAction P} (hi : Inv s) (hk : s.KeepsCounts a)
    (hs : s.step a = some s') : Inv s' := by
  cases a with
  | create o type =>
    obtain ⟨s₁, hmk, rfl⟩ := map_eq_some_iff.1 hs
    unfold obpAllocateObject at hmk
    split at hmk
    · cases hmk
    · next hfr =>
        cases hmk
        have hnn : s.object o = none := by
          cases ho : s.object o with
          | none => rfl
          | some h => exact absurd (.inr (by rw [ho]; rfl)) hfr
        obtain ⟨hz, hh⟩ := hi.counted.absent o hnn
        refine ⟨hi.counted.change (fun h => hfr (.inl h)) rfl (fun o' ho' => ?_)
          (fun _ _ => rfl) (fun _ => ?_) ?_, hi.tablesOk⟩
        · exact update_of_ne ho' ..
        · exact (congrArg Nat.cast hz).symm
        · change (1 : Int) = (s.entries o : Int) + ((update s.held o 1 o : Nat) : Int)
          rw [hz, update_self]
          rfl
  | reference o =>
    obtain ⟨s₁, hrf, rfl⟩ := map_eq_some_iff.1 hs
    obtain ⟨h, ho, rfl⟩ := map_eq_some_iff.1 hrf
    refine ⟨hi.counted.change (hi.counted.ne_zero ho) rfl (fun o' ho' => ?_) (fun _ _ => rfl)
      (fun hm => hi.counted.handles o h ho hm) ?_, hi.tablesOk⟩
    · exact update_of_ne ho' ..
    · have hold := hi.counted.pointers o h ho
      change h.pointerCount + 1 = (s.entries o : Int) + ((update s.held o (s.held o + 1) o : Nat) : Int)
      rw [update_self]
      push_cast
      omega
  | dereference o =>
    rw [HandleSystem.step] at hs
    split at hs
    · cases hs
    · next hh =>
        obtain ⟨s₁, hdr, rfl⟩ := map_eq_some_iff.1 hs
        obtain ⟨h, ho, hdr⟩ := bind_eq_some_iff.1 hdr
        split at hdr
        · cases hdr
        · cases hdr
          refine ⟨hi.counted.change (hi.counted.ne_zero ho) rfl (fun o' ho' => ?_) (fun _ _ => rfl)
            (fun hm => hi.counted.handles o h ho hm) ?_, hi.tablesOk⟩
          · exact update_of_ne ho' ..
          · have hold := hi.counted.pointers o h ho
            change h.pointerCount - 1 =
              (s.entries o : Int) + ((update s.held o (s.held o - 1) o : Nat) : Int)
            rw [update_self]
            omega
  | delete o =>
    rw [HandleSystem.step] at hs
    split at hs
    · next hde =>
        cases hs
        obtain ⟨h, ho, hz⟩ := (Option.any_eq_true _ _).1 hde
        have hold := hi.counted.pointers o h ho
        have hcount : h.pointerCount = 0 := by simpa using hz
        refine ⟨⟨fun o' h' ho' => ?_, fun o' h' ho' => ?_, fun o' ho' => ?_, ?_⟩, hi.tablesOk⟩
        · by_cases he : o' = o
          · subst he
            simp at ho'
          · exact hi.counted.handles o' h' ((update_of_ne he ..).symm.trans ho')
        · by_cases he : o' = o
          · subst he
            simp at ho'
          · exact hi.counted.pointers o' h' ((update_of_ne he ..).symm.trans ho')
        · by_cases he : o' = o
          · subst he
            change s.entries o' = 0 ∧ s.held o' = 0
            omega
          · exact hi.counted.absent o' ((update_of_ne he ..).symm.trans ho')
        · exact (update_of_ne (hi.counted.ne_zero ho).symm ..).trans hi.counted.null
    · cases hs
  | createTable p tr mapRoom =>
    rw [HandleSystem.step] at hs
    split at hs
    · next hp =>
        obtain ⟨made, hc, rfl⟩ := map_eq_some_iff.1 hs
        cases made with
        | error status => exact hi
        | ok t =>
          have hgr : 0 < t.growBy := by
            unfold exCreateHandleTable at hc
            split_ifs at hc
            all_goals cases hc
            all_goals first | exact Nat.succ_pos 15 | omega
          obtain ⟨-, hem, -⟩ := HandleTable.ok_exCreateHandleTable hc
          refine hi.store hi.counted ⟨rfl, rfl⟩ (HandleTable.sound_exCreateHandleTable hc)
            hgr fun o => ?_
          rw [hp, elim_none, refs_empty hem]
    · cases hs
  | insert p o ni dof room =>
    rw [HandleSystem.step] at hs
    split at hs
    · cases hs
    · next hh =>
        obtain ⟨⟨s₁, r⟩, hin, rfl⟩ := map_eq_some_iff.1 hs
        exact hi.obpInsertObject hh hin
  | close p handle room =>
    obtain ⟨⟨s₁, status⟩, hcl, rfl⟩ := map_eq_some_iff.1 hs
    exact hi.obClose hcl
  | closeUninheritable p room => exact hi.osCloseAllUninheritableHandles hs
  | duplicateTable q p or answer tr mapRoom rr =>
    rw [HandleSystem.step] at hs
    split at hs
    · next hq =>
        obtain ⟨⟨s₁, status⟩, hdp, rfl⟩ := map_eq_some_iff.1 hs
        exact hi.obDuplicateHandleTable hq hk hdp
    · cases hs
  | killTable p => exact hi.obKillHandleTable hs

/-- **Handle counts.** In every run in which no fork substitutes an object whose type, or whose
predecessor's type, maintains handle counts, every such count is the number of entries that refer to
the object, and every entry is one of the object's references. -/
theorem handleCounts_right (hr : Reaches step KeepsCounts start s) : s.CountsRight :=
  (hr.invariant inv_start fun _ _ _ hi hk hs => hi.step hk hs).counted.countsRight

/-- No table is duplicated for a fork. -/
def inheritsOnly : HandleSystem P → HandleAction P → Bool
  | _, .duplicateTable _ _ openReason _ _ _ _ => openReason = .inheritHandle
  | _, _ => true

theorem keepsCounts_of_inheritsOnly (s : HandleSystem P) (a : HandleAction P)
    (h : inheritsOnly s a = true) : s.KeepsCounts a := by
  cases a with
  | duplicateTable q p or ans tr mr rr =>
    intro t _ i x _ header new type _ _ hrs
    obtain rfl : or = .inheritHandle := of_decide_eq_true h
    cases hrs
  | _ => trivial

/-- Two handles on object 5, of which process 1 inherits the first; then process 0 closes that one. -/
theorem handleCounts_right_inherit :
    ∃ s : HandleSystem Nat, s.object 5 = some ⟨⟨true, false⟩, 3, 2⟩ ∧ s.entries 5 = 2 ∧
      s.CountsRight := by
  obtain ⟨s, hrn, hts⟩ := (Option.any_eq_true _ _).1 (show (runChecked step inheritsOnly
    [.createTable 0 true true, .create 5 ⟨true, false⟩, .insert 0 5 false false true,
      .insert 0 5 true false true, .duplicateTable 1 0 .inheritHandle (fun _ => none) true true true,
      .close 0 4 true] start).any (fun s : HandleSystem Nat =>
        decide (s.object 5 = some ⟨⟨true, false⟩, 3, 2⟩ ∧ s.entries 5 = 2)) = true by
      decide +kernel)
  obtain ⟨hb, he⟩ := of_decide_eq_true hts
  exact ⟨s, hb, he, handleCounts_right (Reaches.of_runChecked keepsCounts_of_inheritsOnly hrn)⟩

/-- Process 1 is forked, and the `Duplicate` method makes object 2 from object 1: object 1 has one
entry and a handle count of two, and object 2 has one entry and a handle count of zero. -/
theorem duplicate_miscounts : ∃ s : HandleSystem Nat, Reaches step (fun _ _ => True) start s ∧
      s.object 1 = some ⟨⟨true, true⟩, 2, 2⟩ ∧ s.entries 1 = 1 ∧
      s.object 2 = some ⟨⟨true, true⟩, 1, 0⟩ ∧ s.entries 2 = 1 ∧ ¬ s.CountsRight := by
  obtain ⟨s, hrn, hts⟩ := (Option.any_eq_true _ _).1 (show (runChecked step (fun _ _ => true)
    [.createTable 0 true true, .create 1 ⟨true, true⟩, .insert 0 1 false true true,
      .duplicateTable 1 0 .duplicateHandle (fun _ => some (2, ⟨true, true⟩)) true true true]
      start).any (fun s : HandleSystem Nat =>
        decide (s.object 1 = some ⟨⟨true, true⟩, 2, 2⟩ ∧ s.entries 1 = 1 ∧
          s.object 2 = some ⟨⟨true, true⟩, 1, 0⟩ ∧ s.entries 2 = 1)) = true by
      decide +kernel)
  obtain ⟨hold, hon, hw, htw⟩ := of_decide_eq_true hts
  refine ⟨s, .of_runChecked (fun _ _ _ => trivial) hrn, hold, hon, hw, htw, fun hrg => ?_⟩
  have hcount := hrg.handles 1 _ hold rfl
  rw [hon] at hcount
  exact absurd hcount (by decide)

end HandleSystem

end Boron.Ob
