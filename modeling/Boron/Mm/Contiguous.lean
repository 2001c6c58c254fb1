import Boron.Mm.PfnSystem

/-! # Contiguous allocation (`mm/pmm.c`)

`MmAllocatePhysicalContiguousRegion` tries the frames of the free, the zero and the standby list as
the first of its run, the last frame of each list excepted. A run is made of frames whose type is
`PF_TYPE_FREE`; those of the other two lists have another one, so a try of an aligned frame there
fails the assertion that it is free. When nothing is found the result is what the loop variable has
become, the last frame of the standby list.

The walks run on fuel; `searchList_eq` says what they find on a list of the database. -/

namespace Boron.Mm

open Function List Option

/-! ## The code -/

def mmPFNToPhysPage (pfn : Pfn) : Nat := pfn * pageSize

def mmpIsFree (db : Pfdb) (pfn : Pfn) : Bool := (db.frame pfn).type = .free

/-- The list that has the frame at its first or last end, in the order in which the code asks. -/
def listWithEnd (db : Pfdb) (side : PfnEnds → Pfn) (pfn : Pfn) : Option PfnList :=
  if side (db.ends .free) = pfn then some .free
  else if side (db.ends .zero) = pfn then some .zero
  else if side (db.ends .standby) = pfn then some .standby
  else none

def mmpRemovePfnFromItsList (db : Pfdb) (pfn : Pfn) : Option Pfdb :=
  let e := db.frame pfn
  if e.type ≠ .free then none
  else if e.nextFrame ≠ pfnInvalid ∧ e.prevFrame ≠ pfnInvalid then some (mmpUnlinkPfn db pfn)
  else
    let l :=
      if e.nextFrame = pfnInvalid then listWithEnd db PfnEnds.last pfn
      else listWithEnd db PfnEnds.first pfn
    l.map fun l => mmpRemovePfnFromList db l pfn

/-- The second loop of `MmpTryAllocateContiguousRegion`: take `count` frames from `pfn` on. -/
def takeFrames : (count : Nat) → Pfn → Pfdb → Option Pfdb
  | 0, _, db => some db
  | count + 1, pfn, db =>
    (mmpRemovePfnFromItsList db pfn).bind fun db =>
      (mmpInitializePfn db pfn).bind fun r => takeFrames count (pfn + 1) r.1

/-- `MmpTryAllocateContiguousRegion`: `none` is a failed assertion, `some none` the result `false`. -/
def mmpTryAllocateContiguousRegion (db : Pfdb) (pfn : Pfn) (pageCount alignment : Nat) :
    Option (Option Pfdb) :=
  if mmPFNToPhysPage pfn &&& alignment ≠ 0 then some none
  else if !mmpIsFree db pfn then none
  else if !(List.range' 1 (pageCount - 1)).all fun i => mmpIsFree db (pfn + i) then some none
  else (takeFrames pageCount pfn db).map some

/-- How the walk over a list ends. -/
inductive Search
  | found (db : Pfdb) (pfn : Pfn)
  | notFound
  | crashed
  | running

/-- The walk over a list, from `pfn` on. -/
def searchList (db : Pfdb) (l : PfnList) (pageCount alignment : Nat) : (fuel : Nat) → Pfn → Search
  | 0, _ => .running
  | fuel + 1, pfn =>
    if pfn = (db.ends l).last then .notFound
    else
      match mmpTryAllocateContiguousRegion db pfn pageCount alignment with
      | none => .crashed
      | some (some db') => .found db' pfn
      | some none => searchList db l pageCount alignment fuel (db.frame pfn).nextFrame

/-- `MmAllocatePhysicalContiguousRegion`; `none` where it does not return. -/
def mmAllocatePhysicalContiguousRegion (fuel : Nat) (db : Pfdb) (pageCount alignment : Nat) :
    Option (Pfdb × Pfn) :=
  match searchList db .free pageCount alignment fuel (db.ends .free).first with
  | .found db' pfn => some (db', pfn)
  | .notFound =>
    match searchList db .zero pageCount alignment fuel (db.ends .zero).first with
    | .found db' pfn => some (db', pfn)
    | .notFound =>
      match searchList db .standby pageCount alignment fuel (db.ends .standby).first with
      | .found db' pfn => some (db', pfn)
      | .notFound => some (db, (db.ends .standby).last)
      | _ => none
    | _ => none
  | _ => none

/-! ## What should hold -/

/-- A run of free frames: aligned, and each of them on the zero, free or standby list. -/
def FreeRun (L : PfnList → List Pfn) (pageCount alignment pfn : Nat) : Prop :=
  mmPFNToPhysPage pfn &&& alignment = 0 ∧ ∀ i < pageCount, ∃ l, l ≠ .modified ∧ pfn + i ∈ L l

/-- The frames of the run belong to the caller, and the others are on the lists as before. -/
structure RunTaken (db' : Pfdb) (L : PfnList → List Pfn) (pageCount pfn : Nat) : Prop where
  used : ∀ i < pageCount, (db'.frame (pfn + i)).type = .used ∧ (db'.frame (pfn + i)).refCount = 1
  listsOk : ∃ L', db'.ListsOk L' ∧
    ∀ l, L' l = (L l).filter fun q : Nat => decide (q < pfn ∨ pfn + pageCount ≤ q)

/-- A call as it should be: it returns `PFN_INVALID` and changes nothing, which it may do only if no
    run begins on the free list; or it returns the first of a run of free frames that now belongs to
    the caller. -/
def AllocatesRight (db : Pfdb) (L : PfnList → List Pfn) (pageCount alignment : Nat) : Prop :=
  ∃ fuel db' pfn, mmAllocatePhysicalContiguousRegion fuel db pageCount alignment = some (db', pfn) ∧
    ((pfn = pfnInvalid ∧ db' = db ∧ ∀ p ∈ L .free, ¬ FreeRun L pageCount alignment p) ∨
      (pfn ≠ pfnInvalid ∧ FreeRun L pageCount alignment pfn ∧ RunTaken db' L pageCount pfn))

/-! ## Taking a run -/

variable {db db' : Pfdb} {L : PfnList → List Pfn} {l : PfnList}
  {p q pageCount alignment : Nat}

theorem Pfdb.ListsOk.linked (h : db.ListsOk L) : Linked db L := ⟨h.isList, h.disjoint⟩

/-- A frame of the free list is found to be on it, whether it is in the middle or at an end. -/
theorem mmpRemovePfnFromItsList_eq (h : db.ListsOk L) (hp : p ∈ L .free) :
    mmpRemovePfnFromItsList db p = some (mmpRemovePfnFromList db .free p) := by
  have hl := h.isList .free
  simp only [mmpRemovePfnFromItsList]
  rw [if_neg (by simpa using h.free p hp)]
  split
  · next hmd =>
      -- no end of the list has to be moved
      rw [mmpRemovePfnFromList, mmpEnsurePfnIsntEndsOfList_of_ne]
      · rw [mmpUnlinkPfn_ends]
        exact fun he => hmd.2 ((hl.first_eq_iff hp).1 he)
      · rw [mmpUnlinkPfn_ends]
        exact fun he => hmd.1 ((hl.last_eq_iff hp).1 he)
  · next hen =>
      split
      · next hnext =>
          have hls : (db.ends .free).last = p := (hl.last_eq_iff hp).2 hnext
          rw [listWithEnd, if_pos hls, map_some]
      · next hnext =>
          have hpr : (db.frame p).prevFrame = pfnInvalid := by
            by_contra hne
            exact hen ⟨hnext, hne⟩
          have hfs : (db.ends .free).first = p := (hl.first_eq_iff hp).2 hpr
          rw [listWithEnd, if_pos hfs, map_some]

theorem mmpInitializePfn_removed (h : db.ListsOk L) (hp : p ∈ L .free) :
    mmpInitializePfn (mmpRemovePfnFromList db .free p) p =
      some (((mmpRemovePfnFromList db .free p).modify p fun e =>
        { e with type := .used, refCount := 1, nextFrame := 0, prevFrame := 0,
                 prototypePte := 0 }).decFree, none) := by
  have hy : ((mmpRemovePfnFromList db .free p).frame p).type = .free :=
    (Pfdbe.fields_of_unlinked mmpRemovePfnFromList_unlinked).1.trans (h.free p hp)
  simp only [mmpInitializePfn, hy, reduceCtorEq, false_and, if_false]

/-- One turn of the loop: the frame leaves its list for the caller. -/
theorem listsOk_taken (h : db.ListsOk L) (hp : p ∈ L .free)
    (hb : db' = ((mmpRemovePfnFromList db .free p).modify p fun e =>
      { e with type := .used, refCount := 1, nextFrame := 0, prevFrame := 0,
               prototypePte := 0 }).decFree) :
    db'.ListsOk (update L .free ((L .free).erase p)) ∧
      (db'.frame p).type = .used ∧ (db'.frame p).refCount = 1 ∧
      ∀ q : Nat, q ≠ p → (db'.frame q).unlinked = (db.frame q).unlinked := by
  have hother : ∀ q, q ≠ p → (db'.frame q).unlinked = (db.frame q).unlinked := by
    intro q hq
    rw [hb, Pfdb.decFree_frame, Pfdb.modify_frame, if_neg hq]
    exact mmpRemovePfnFromList_unlinked
  have hsl : (db'.frame p).type = .used ∧ (db'.frame p).refCount = 1 := by
    rw [hb, Pfdb.decFree_frame, Pfdb.modify_frame_self]
    exact ⟨rfl, rfl⟩
  have hnd := (h.isList .free).nodup
  have hme : ∀ l q, q ∈ update L .free ((L .free).erase p) l → q ∈ L l ∧ q ≠ p := by
    intro l q hq
    by_cases hl : l = .free
    · subst hl
      rw [update_self, hnd.mem_erase_iff] at hq
      exact ⟨hq.2, hq.1⟩
    · rw [update_of_ne hl] at hq
      exact ⟨hq, fun he => hl (h.disjoint l .free p (he ▸ hq) hp)⟩
  have hln : Linked db' (update L .free ((L .free).erase p)) := by
    rw [hb]
    refine ((h.linked.remove hp).modify_of_not_mem (fun l hl => ?_) _).decFree
    exact (hme l p hl).2 rfl
  have hfl : ∀ l q, q ∈ update L .free ((L .free).erase p) l →
      q ∈ L l ∧ (db'.frame q).type = (db.frame q).type ∧
        (db'.frame q).refCount = (db.frame q).refCount ∧
        (db'.frame q).prototypePte = (db.frame q).prototypePte := by
    intro l q hq
    obtain ⟨hql, hqp⟩ := hme l q hq
    obtain ⟨hy, hrf, hpr, -⟩ := Pfdbe.fields_of_unlinked (hother q hqp)
    exact ⟨hql, hy, hrf, hpr⟩
  refine ⟨⟨hln.isList, hln.disjoint, ?_, ?_, ?_, ?_, ?_⟩, hsl.1, hsl.2, hother⟩
  · intro l q hpos hq
    obtain ⟨hql, -, hrf, -⟩ := hfl l q hq
    exact h.unreferenced l q (hrf ▸ hpos) hql
  · intro q hq
    obtain ⟨hql, hy, -⟩ := hfl _ q hq
    exact hy.trans (h.zero q hql)
  · intro q hq
    obtain ⟨hql, hy, -⟩ := hfl _ q hq
    exact hy.trans (h.free q hql)
  · intro q hq
    obtain ⟨hql, hy, -, hpr⟩ := hfl _ q hq
    exact ⟨hy.trans (h.standby q hql).1, hpr ▸ (h.standby q hql).2⟩
  · intro q hq
    obtain ⟨hql, hy, hrf, -⟩ := hfl _ q hq
    exact ⟨hy.trans (h.modified q hql).1, hrf.trans (h.modified q hql).2⟩

/-- The loop takes frames of the free list and leaves the others alone. -/
theorem takeFrames_spec {count : Nat} (h : db.ListsOk L) (hrn : ∀ i < count, p + i ∈ L .free) :
    ∃ db', takeFrames count p db = some db' ∧ RunTaken db' L count p ∧
      ∀ q : Nat, q < p ∨ p + count ≤ q → (db'.frame q).unlinked = (db.frame q).unlinked := by
  induction count generalizing db L p with
  | zero =>
    refine ⟨db, rfl, ⟨fun i hi => by omega, L, h, fun l => ?_⟩, fun _ _ => rfl⟩
    refine (filter_eq_self.2 fun (q : Nat) _ => ?_).symm
    rw [decide_eq_true_eq]
    omega
  | succ count ih =>
    have hp : p ∈ L .free := hrn 0 (Nat.succ_pos count)
    have hnd := (h.isList .free).nodup
    obtain ⟨hok, hy, hrf, hother⟩ := listsOk_taken h hp rfl
    obtain ⟨db', htk, ⟨hu, L', hok', hL'⟩, hkp⟩ := ih (p := p + 1) hok (by
      intro i hi
      rw [update_self, hnd.mem_erase_iff]
      refine ⟨show (p + 1 + i : Nat) ≠ p by omega, ?_⟩
      have := hrn (i + 1) (by omega)
      rwa [show p + (i + 1) = p + 1 + i by omega] at this)
    refine ⟨db', ?_, ⟨fun i hi => ?_, L', hok', fun l => ?_⟩, fun q hq => ?_⟩
    · rw [takeFrames, mmpRemovePfnFromItsList_eq h hp, bind_some,
        mmpInitializePfn_removed h hp, bind_some, htk]
    · cases i with
      | zero =>
        obtain ⟨ht, hr, -⟩ := Pfdbe.fields_of_unlinked (hkp p (.inl (Nat.lt_succ_self p)))
        exact ⟨ht.trans hy, hr.trans hrf⟩
      | succ i =>
        rw [show p + (i + 1) = p + 1 + i by omega]
        exact hu i (by omega)
    · rw [hL' l]
      by_cases hl : l = .free
      · subst hl
        rw [update_self, hnd.erase_eq_filter, List.filter_filter]
        refine filter_congr fun (q : Nat) _ => ?_
        rw [Bool.eq_iff_iff, Bool.and_eq_true, bne_iff_ne, decide_eq_true_eq, decide_eq_true_eq]
        change (_ ∧ @Ne Nat q p) ↔ _
        omega
      · rw [update_of_ne hl]
        refine filter_congr fun (q : Nat) hq => ?_
        have hqp : q ≠ p := fun he => hl (h.disjoint l .free p (he ▸ hq) hp)
        rw [Bool.eq_iff_iff, decide_eq_true_eq, decide_eq_true_eq]
        omega
    · rw [hkp q (by omega)]
      exact hother q (by omega)

/-! ## The walks -/

/-- The walk over a list of frames: what the code tries, one after the other. -/
def scan (db : Pfdb) (pageCount alignment : Nat) : List Pfn → Search
  | [] => .notFound
  | p :: ps =>
    match mmpTryAllocateContiguousRegion db p pageCount alignment with
    | none => .crashed
    | some (some db') => .found db' p
    | some none => scan db pageCount alignment ps

variable {ps : List Pfn}

theorem searchList_suffix {pre : List Pfn} (h : db.IsList l (pre ++ ps)) (hp : ps ≠ [])
    (pageCount alignment fuel : Nat) :
    (searchList db l pageCount alignment fuel (ps.headD pfnInvalid) = .running ∨
      searchList db l pageCount alignment fuel (ps.headD pfnInvalid) =
        scan db pageCount alignment ps.dropLast) ∧
    (ps.length ≤ fuel → searchList db l pageCount alignment fuel (ps.headD pfnInvalid) =
      scan db pageCount alignment ps.dropLast) := by
  induction ps generalizing pre fuel with
  | nil => exact absurd rfl hp
  | cons p ps ih =>
    cases fuel with
    | zero => exact ⟨.inl rfl, fun hle => absurd hle (Nat.not_succ_le_zero _)⟩
    | succ fuel =>
      have hme : p ∈ pre ++ p :: ps := mem_append_right _ mem_cons_self
      have hnext : (db.frame p).nextFrame = ps.headD pfnInvalid := h.links.2
      have hls : (db.ends l).last = p ↔ ps.headD pfnInvalid = pfnInvalid := by
        rw [← hnext]
        exact h.last_eq_iff hme
      rw [headD_cons, searchList]
      cases ps with
      | nil =>
        rw [if_pos (hls.2 rfl).symm]
        exact ⟨.inr rfl, fun _ => rfl⟩
      | cons q ps =>
        have hq : q ≠ pfnInvalid := h.ne_nil (by simp)
        rw [if_neg (fun he => hq (hls.1 he.symm)), hnext]
        rw [dropLast_cons_of_ne_nil (cons_ne_nil q ps), scan]
        cases mmpTryAllocateContiguousRegion db p pageCount alignment with
        | none => exact ⟨.inr rfl, fun _ => rfl⟩
        | some r =>
          cases r with
          | some db' => exact ⟨.inr rfl, fun _ => rfl⟩
          | none =>
            have hrs : db.IsList l ((pre ++ [p]) ++ q :: ps) := by
              rwa [append_assoc]
            obtain ⟨han, ha⟩ := ih hrs (cons_ne_nil q ps) fuel
            exact ⟨han, fun hle => ha (Nat.le_of_succ_le_succ hle)⟩

theorem searchList_eq (h : db.IsList l ps) (pageCount alignment fuel : Nat) :
    (searchList db l pageCount alignment fuel (db.ends l).first = .running ∨
      searchList db l pageCount alignment fuel (db.ends l).first =
        scan db pageCount alignment ps.dropLast) ∧
    (ps.length < fuel → searchList db l pageCount alignment fuel (db.ends l).first =
      scan db pageCount alignment ps.dropLast) := by
  cases ps with
  | nil =>
    cases fuel with
    | zero => exact ⟨.inl rfl, fun hlt => absurd hlt (Nat.not_lt_zero _)⟩
    | succ fuel =>
      have he : (db.ends l).first = (db.ends l).last := h.first_eq.trans h.last_eq.symm
      rw [searchList, if_pos he]
      exact ⟨.inr rfl, fun _ => rfl⟩
  | cons p ps =>
    rw [h.first_eq]
    have hsf : db.IsList l ([] ++ p :: ps) := h
    obtain ⟨han, ha⟩ :=
      searchList_suffix hsf (cons_ne_nil p ps) pageCount alignment fuel
    exact ⟨han, fun hlt => ha (Nat.le_of_lt hlt)⟩

/-- What the call finds on the lists of the database. -/
def scanLists (db : Pfdb) (L : PfnList → List Pfn) (pageCount alignment : Nat) :
    Option (Pfdb × Pfn) :=
  match scan db pageCount alignment (L .free).dropLast with
  | .found db' pfn => some (db', pfn)
  | .notFound =>
    match scan db pageCount alignment (L .zero).dropLast with
    | .found db' pfn => some (db', pfn)
    | .notFound =>
      match scan db pageCount alignment (L .standby).dropLast with
      | .found db' pfn => some (db', pfn)
      | .notFound => some (db, (db.ends .standby).last)
      | _ => none
    | _ => none
  | _ => none

/-- With enough fuel the call returns what it finds on the lists, with less it may not return. -/
theorem mmAllocatePhysicalContiguousRegion_eq (h : db.ListsOk L) (pageCount alignment fuel : Nat) :
    (mmAllocatePhysicalContiguousRegion fuel db pageCount alignment = none ∨
      mmAllocatePhysicalContiguousRegion fuel db pageCount alignment =
        scanLists db L pageCount alignment) ∧
    ((∀ l, (L l).length < fuel) → mmAllocatePhysicalContiguousRegion fuel db pageCount alignment =
      scanLists db L pageCount alignment) := by
  have hls := fun l => searchList_eq (h.isList l) pageCount alignment fuel
  constructor
  · unfold mmAllocatePhysicalContiguousRegion scanLists
    obtain hfr | hfr := (hls .free).1
    · rw [hfr]
      exact .inl rfl
    · rw [hfr]
      cases scan db pageCount alignment (L .free).dropLast with
      | found db' p => exact .inr rfl
      | crashed => exact .inr rfl
      | running => exact .inr rfl
      | notFound =>
        obtain hz | hz := (hls .zero).1
        · rw [hz]
          exact .inl rfl
        · rw [hz]
          cases scan db pageCount alignment (L .zero).dropLast with
          | found db' p => exact .inr rfl
          | crashed => exact .inr rfl
          | running => exact .inr rfl
          | notFound =>
            obtain hst | hst := (hls .standby).1
            · rw [hst]
              exact .inl rfl
            · rw [hst]
              exact .inr rfl
  · intro hfl
    unfold mmAllocatePhysicalContiguousRegion scanLists
    rw [(hls .free).2 (hfl _), (hls .zero).2 (hfl _), (hls .standby).2 (hfl _)]

/-- The same for what the walks of the lists return. -/
def ScansRight (db : Pfdb) (L : PfnList → List Pfn) (pageCount alignment : Nat) : Prop :=
  ∃ db' pfn, scanLists db L pageCount alignment = some (db', pfn) ∧
    ((pfn = pfnInvalid ∧ db' = db ∧ ∀ p ∈ L .free, ¬ FreeRun L pageCount alignment p) ∨
      (pfn ≠ pfnInvalid ∧ FreeRun L pageCount alignment pfn ∧ RunTaken db' L pageCount pfn))

theorem allocatesRight_iff (h : db.ListsOk L) :
    AllocatesRight db L pageCount alignment ↔ ScansRight db L pageCount alignment := by
  constructor
  · rintro ⟨fuel, db', pfn, hc, hrg⟩
    obtain hnn | heq :=
      (mmAllocatePhysicalContiguousRegion_eq h pageCount alignment fuel).1
    · rw [hnn] at hc
      cases hc
    · exact ⟨db', pfn, heq ▸ hc, hrg⟩
  · rintro ⟨db', pfn, hsc, hrg⟩
    refine ⟨(L .zero).length + (L .free).length + (L .standby).length + (L .modified).length + 1,
      db', pfn, ?_, hrg⟩
    rw [(mmAllocatePhysicalContiguousRegion_eq h pageCount alignment _).2, hsc]
    intro l
    cases l <;> omega

/-! ## What the walks find -/

/-- The code's test of a frame of the free list. -/
def fits (db : Pfdb) (pageCount alignment pfn : Nat) : Bool :=
  mmPFNToPhysPage pfn &&& alignment = 0 &&
    (List.range' 1 (pageCount - 1)).all fun i => mmpIsFree db (pfn + i)

theorem scan_free (hp : ∀ p ∈ ps, (db.frame p).type = .free) (pageCount alignment : Nat) :
    scan db pageCount alignment ps =
      match ps.find? (fits db pageCount alignment) with
      | none => .notFound
      | some p =>
        match takeFrames pageCount p db with
        | none => .crashed
        | some db' => .found db' p := by
  induction ps with
  | nil => rfl
  | cons p ps ih =>
    have hfr : mmpIsFree db p = true := by
      rw [mmpIsFree, hp p mem_cons_self]
      rfl
    have hrs := ih fun q hq => hp q (mem_cons_of_mem p hq)
    rw [scan, mmpTryAllocateContiguousRegion, List.find?_cons, hfr]
    by_cases hal : mmPFNToPhysPage p &&& alignment = 0
    · rw [if_neg (not_not.2 hal), if_neg (by decide)]
      cases ha : (List.range' 1 (pageCount - 1)).all fun i => mmpIsFree db (p + i) with
      | false =>
        have hft : fits db pageCount alignment p = false := by
          rw [fits, ha, Bool.and_false]
        rw [hft, if_pos (by decide)]
        exact hrs
      | true =>
        have hft : fits db pageCount alignment p = true := by
          rw [fits, ha, Bool.and_true, decide_eq_true hal]
        rw [hft, if_neg (by decide)]
        change _ = match takeFrames pageCount p db with
          | none => Search.crashed
          | some db' => Search.found db' p
        cases takeFrames pageCount p db <;> rfl
    · have hft : fits db pageCount alignment p = false := by
        rw [fits, decide_eq_false hal, Bool.false_and]
      rw [hft, if_pos hal]
      exact hrs

/-- Over frames of another type the walk finds nothing aligned, or fails the assertion. -/
theorem scan_other (hps : ∀ p ∈ ps, (db.frame p).type ≠ .free) (pageCount alignment : Nat) :
    ((∀ p ∈ ps, mmPFNToPhysPage p &&& alignment ≠ 0) ∧ scan db pageCount alignment ps = .notFound) ∨
    (¬ (∀ p ∈ ps, mmPFNToPhysPage p &&& alignment ≠ 0) ∧
      scan db pageCount alignment ps = .crashed) := by
  induction ps with
  | nil => exact .inl ⟨fun p hp => absurd hp not_mem_nil, rfl⟩
  | cons p ps ih =>
    have hfr : mmpIsFree db p = false := decide_eq_false (hps p mem_cons_self)
    rw [scan, mmpTryAllocateContiguousRegion, hfr, forall_mem_cons]
    by_cases hal : mmPFNToPhysPage p &&& alignment = 0
    · rw [if_neg (not_not.2 hal), if_pos (by decide)]
      exact .inr ⟨fun ha => ha.1 hal, rfl⟩
    · rw [if_pos hal]
      obtain ⟨ha, hc⟩ | ⟨ha, hc⟩ := ih fun q hq => hps q (mem_cons_of_mem p hq)
      · exact .inl ⟨⟨hal, ha⟩, hc⟩
      · exact .inr ⟨fun h => ha h.2, hc⟩

/-! ## When the call is as it should be -/

/-- The condition. The first frame that fits, of those of the free list that are tried, begins a run on
    the free list; or there is none, the standby list is empty, no frame of the zero list that is tried
    is aligned, and no run of free frames begins on the free list. -/
def ContiguousOk (db : Pfdb) (L : PfnList → List Pfn) (pageCount alignment : Nat) : Prop :=
  match (L .free).dropLast.find? (fits db pageCount alignment) with
  | some p => ∀ i < pageCount, (p : Nat) + i ∈ L .free
  | none =>
    L .standby = [] ∧ (∀ p ∈ (L .zero).dropLast, mmPFNToPhysPage p &&& alignment ≠ 0) ∧
      ∀ p ∈ L .free, ¬ FreeRun L pageCount alignment p

theorem aligned_of_fits (h : fits db pageCount alignment p = true) :
    mmPFNToPhysPage p &&& alignment = 0 := by
  rw [fits, Bool.and_eq_true, decide_eq_true_eq] at h
  exact h.1

theorem free_of_fits (h : fits db pageCount alignment p = true) {i : Nat} (hi : 1 ≤ i)
    (hlt : i < pageCount) : (db.frame (p + i)).type = .free := by
  rw [fits, Bool.and_eq_true, List.all_eq_true] at h
  have hme : i ∈ List.range' 1 (pageCount - 1) := by
    rw [mem_range'_1]
    omega
  exact of_decide_eq_true (h.2 i hme)

theorem Pfdb.ListsOk.free_of_type (h : db.ListsOk L) (hl : l ≠ .modified) (hp : p ∈ L l)
    (hy : (db.frame p).type = .free) : p ∈ L .free := by
  cases l with
  | free => exact hp
  | modified => exact absurd rfl hl
  | zero =>
    rw [h.zero p hp] at hy
    cases hy
  | standby =>
    rw [(h.standby p hp).1] at hy
    cases hy

theorem scanLists_found (h : db.ListsOk L)
    (hfn : (L .free).dropLast.find? (fits db pageCount alignment) = some p) :
    ScansRight db L pageCount alignment ↔ ∀ i < pageCount, p + i ∈ L .free := by
  have hft := List.find?_some hfn
  have hp : p ∈ L .free := dropLast_subset _ (mem_of_find?_eq_some hfn)
  have hfr : ∀ q ∈ (L .free).dropLast, (db.frame q).type = .free :=
    fun q hq => h.free q (dropLast_subset _ hq)
  have hsc := scan_free hfr pageCount alignment
  rw [hfn] at hsc
  constructor
  · rintro ⟨db', pfn, hc, hrg⟩ i hi
    -- whatever is returned is the frame that was found
    have hpf : pfn = p := by
      unfold scanLists at hc
      simp only at hsc
      rw [hsc] at hc
      cases htk : takeFrames pageCount p db with
      | none =>
        rw [htk] at hc
        cases hc
      | some db₁ =>
        rw [htk] at hc
        cases hc
        rfl
    subst hpf
    obtain ⟨hin, -⟩ | ⟨-, ⟨-, hrn⟩, -⟩ := hrg
    · exact absurd hin (h.linked.ne_invalid hp)
    · obtain ⟨l, hl, hme⟩ := hrn i hi
      by_cases hz : i = 0
      · subst hz
        exact hp
      · exact h.free_of_type hl hme (free_of_fits hft (by omega) hi)
  · intro hrn
    obtain ⟨db', htk, htn, -⟩ := takeFrames_spec h hrn
    refine ⟨db', p, ?_, .inr ⟨h.linked.ne_invalid hp, ⟨aligned_of_fits hft, fun i hi => ?_⟩, htn⟩⟩
    · unfold scanLists
      simp only at hsc
      rw [hsc, htk]
    · exact ⟨.free, by decide, hrn i hi⟩

/-- A call that finds nothing on the free list is as it should be exactly when it reaches the end of
    the zero list, and the standby list is empty. -/
theorem scanLists_notFound (h : db.ListsOk L) (hpos : 1 ≤ pageCount)
    (hfn : (L .free).dropLast.find? (fits db pageCount alignment) = none) :
    ScansRight db L pageCount alignment ↔
      L .standby = [] ∧ (∀ p ∈ (L .zero).dropLast, mmPFNToPhysPage p &&& alignment ≠ 0) ∧
        ∀ p ∈ L .free, ¬ FreeRun L pageCount alignment p := by
  have hfr : ∀ q ∈ (L .free).dropLast, (db.frame q).type = .free :=
    fun q hq => h.free q (dropLast_subset _ hq)
  have hsc := scan_free hfr pageCount alignment
  rw [hfn] at hsc
  simp only at hsc
  have hzr : ∀ q ∈ (L .zero).dropLast, (db.frame q).type ≠ .free := by
    intro q hq
    rw [h.zero q (dropLast_subset _ hq)]
    decide
  have hc : ∀ q ∈ (L .standby).dropLast, (db.frame q).type ≠ .free := by
    intro q hq
    rw [(h.standby q (dropLast_subset _ hq)).1]
    decide
  unfold ScansRight scanLists
  rw [hsc]
  obtain ⟨ha, hz⟩ | ⟨hsm, hz⟩ := scan_other hzr pageCount alignment
  swap
  · rw [hz]
    refine iff_of_false ?_ fun hok => hsm hok.2.1
    rintro ⟨db', pfn, hcl, -⟩
    cases hcl
  · rw [hz]
    have he : (db.ends .standby).last = (L .standby).getLastD pfnInvalid :=
      (h.isList .standby).last_eq
    obtain ⟨-, hs⟩ | ⟨hsm, hs⟩ := scan_other hc pageCount alignment
    · rw [hs]
      constructor
      · rintro ⟨db', pfn, hcl, hrg⟩
        cases hcl
        obtain ⟨hin, -, hnn⟩ | ⟨hne, -, htk⟩ := hrg
        · refine ⟨?_, ha, hnn⟩
          -- only an empty list has no last frame
          by_contra hls
          rw [he, getLastD_eq_getLast?, List.getLast?_eq_some_getLast hls, getD_some] at hin
          exact h.linked.ne_invalid (getLast_mem hls) hin
        · obtain hin | hme := (h.isList .standby).ends_mem.2
          · exact absurd hin hne
          · have hu := (htk.used 0 hpos).1
            rw [Nat.add_zero, (h.standby _ hme).1] at hu
            cases hu
      · rintro ⟨hem, -, hnn⟩
        refine ⟨db, (db.ends .standby).last, rfl, .inl ⟨?_, rfl, hnn⟩⟩
        rw [he, hem]
        rfl
    · rw [hs]
      refine iff_of_false ?_ fun hok => hsm ?_
      · rintro ⟨db', pfn, hcl, -⟩
        cases hcl
      · rw [hok.1]
        exact fun p hp => absurd hp not_mem_nil

/-- **Contiguous allocation is right exactly when its run is among the frames it tries**, or when there
is no run, no standby page, and no aligned page it tries on the zero list. -/
theorem contiguousAllocation_iff (h : db.ListsOk L) (hpos : 1 ≤ pageCount) :
    AllocatesRight db L pageCount alignment ↔ ContiguousOk db L pageCount alignment := by
  rw [allocatesRight_iff h, ContiguousOk]
  cases hfn : (L .free).dropLast.find? (fits db pageCount alignment) with
  | some p => exact scanLists_found h hfn
  | none => exact scanLists_notFound h hpos hfn

/-! ## Two frames -/

/-- The type of the frames on a list. -/
def PfnList.type : PfnList → PfType
  | .zero => .zeroed
  | .free => .free
  | .standby => .transition
  | .modified => .used

/-- The frames `1` and `2` are on the list `l`, and there are no others. -/
def pairOn (l : PfnList) : Pfdb where
  frame p :=
    if p = 1 then
      { Pfdbe.zero with type := l.type, nextFrame := 2, prevFrame := pfnInvalid, prototypePte := 1 }
    else if p = 2 then
      { Pfdbe.zero with type := l.type, nextFrame := pfnInvalid, prevFrame := 1, prototypePte := 1 }
    else { Pfdbe.zero with type := .mmio }
  ends m := if m = l then ⟨1, 2⟩ else ⟨pfnInvalid, pfnInvalid⟩
  totalFreePages := 2

def pairLists (l m : PfnList) : List Pfn := if m = l then [1, 2] else []

theorem listsOk_pairOn (l : PfnList) : (pairOn l).ListsOk (pairLists l) := by
  have hme : ∀ m p, p ∈ pairLists l m → m = l ∧ (p = 1 ∨ p = 2) := by
    intro m p hp
    unfold pairLists at hp
    split at hp
    · next hm => exact ⟨hm, by simpa using hp⟩
    · cases hp
  have hfr : ∀ p, p = 1 ∨ p = 2 → ((pairOn l).frame p).type = l.type ∧
      ((pairOn l).frame p).refCount = 0 ∧ ((pairOn l).frame p).prototypePte = 1 := by
    rintro p (rfl | rfl) <;> exact ⟨rfl, rfl, rfl⟩
  refine ⟨fun m => ?_, fun m k p hm hk => (hme m p hm).1.trans (hme k p hk).1.symm, ?_, ?_, ?_, ?_, ?_⟩
  · unfold Pfdb.IsList pairLists pairOn
    by_cases hm : m = l
    · simp only [if_pos hm]
      exact ⟨rfl, rfl, by decide, by decide, rfl, rfl, rfl, rfl, trivial⟩
    · simp only [if_neg hm]
      exact .empty
  · intro m p hrf hp
    rw [(hfr p (hme m p hp).2).2.1] at hrf
    exact absurd hrf (by decide)
  · intro p hp
    obtain ⟨rfl, hp12⟩ := hme _ p hp
    exact (hfr p hp12).1
  · intro p hp
    obtain ⟨rfl, hp12⟩ := hme _ p hp
    exact (hfr p hp12).1
  · intro p hp
    obtain ⟨rfl, hp12⟩ := hme _ p hp
    exact ⟨(hfr p hp12).1, by rw [(hfr p hp12).2.2]; decide⟩
  · intro p hp
    obtain ⟨rfl, hp12⟩ := hme _ p hp
    exact ⟨(hfr p hp12).1, (hfr p hp12).2.1⟩

/-- Both frames of the free list are taken. -/
theorem contiguousAllocation_pair : AllocatesRight (pairOn .free) (pairLists .free) 2 0 := by
  refine (contiguousAllocation_iff (listsOk_pairOn .free) (by decide)).2 ?_
  have hfn : (pairLists .free .free).dropLast.find? (fits (pairOn .free) 2 0) = some 1 := by
    decide +kernel
  rw [ContiguousOk, hfn]
  decide

/-- Only the second frame of a free list is aligned, and it is never tried: the call reports failure.
    On a standby list with the same frames it returns the second one untouched, and on a zero list with
    an aligned first frame it fails its assertion. -/
theorem contiguousAllocation_wrong :
    (FreeRun (pairLists .free) 1 0x1000 2 ∧ ¬ AllocatesRight (pairOn .free) (pairLists .free) 1 0x1000) ∧
    (scanLists (pairOn .standby) (pairLists .standby) 1 0x1000 = some (pairOn .standby, 2) ∧
      ¬ AllocatesRight (pairOn .standby) (pairLists .standby) 1 0x1000) ∧
    (scanLists (pairOn .zero) (pairLists .zero) 1 0 = none ∧
      ¬ AllocatesRight (pairOn .zero) (pairLists .zero) 1 0) := by
  have hfr : scanLists (pairOn .free) (pairLists .free) 1 0x1000 = some (pairOn .free, pfnInvalid) :=
    rfl
  have hst : scanLists (pairOn .standby) (pairLists .standby) 1 0x1000 =
      some (pairOn .standby, 2) := rfl
  have hz : scanLists (pairOn .zero) (pairLists .zero) 1 0 = none := rfl
  have hrn : FreeRun (pairLists .free) 1 0x1000 2 := by
    refine ⟨by decide, fun i hi => ⟨.free, by decide, ?_⟩⟩
    obtain rfl : i = 0 := by omega
    decide
  refine ⟨⟨hrn, fun h => ?_⟩, ⟨hst, fun h => ?_⟩, hz, fun h => ?_⟩
  · obtain ⟨db', pfn, hc, hrg⟩ := (allocatesRight_iff (listsOk_pairOn .free)).1 h
    rw [hfr] at hc
    cases hc
    obtain ⟨-, -, hnn⟩ | ⟨hne, -⟩ := hrg
    · exact hnn 2 (by decide) hrn
    · exact hne rfl
  · obtain ⟨db', pfn, hc, hrg⟩ := (allocatesRight_iff (listsOk_pairOn .standby)).1 h
    rw [hst] at hc
    cases hc
    obtain ⟨hin, -⟩ | ⟨-, -, htk⟩ := hrg
    · exact absurd hin (by decide)
    · exact absurd (htk.used 0 Nat.one_pos).1 (by decide)
  · obtain ⟨db', pfn, hc, -⟩ := (allocatesRight_iff (listsOk_pairOn .zero)).1 h
    rw [hz] at hc
    cases hc

end Boron.Mm
