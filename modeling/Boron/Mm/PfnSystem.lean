import Boron.Lib.Run
import Boron.Mm.PfnLists

/-! # The life of a page frame

The frame database runs under one lock, so a run of the system is a sequence of locked steps taken by
arbitrary threads (`PfnSystem.step`). Beside the database the state keeps what those threads have in
their hands: the references callers own, the pages the modified page writer is writing out, the
frames between the two locked halves of `MmZeroOutFirstPFN`.

The abstract model is the life cycle of a single frame: a `Role` and the transitions `FrameStep`
between roles. `PfnSystem.step_moved` connects the two: every step of the code moves one frame along
its life cycle and leaves all others alone. The results about the lists, the free page counter and
the modified page writer all rest on that theorem. -/

namespace Boron.Mm

open Function Option

/-! ## The system -/

/-- What the threads of the system hold of a frame. -/
structure Hold where
  /-- references that callers own -/
  refs : Nat := 0
  /-- the modified page writer is writing the page out -/
  writing : Bool := false
  /-- the first half of `MmZeroOutFirstPFN` took the frame -/
  zeroing : Bool := false
  deriving DecidableEq, Repr

/-- The frame database and the threads around it. -/
structure PfnSystem where
  db : Pfdb
  hold : Pfn → Hold

/-- Change what is held of a frame, over a new database. -/
def PfnSystem.update (s : PfnSystem) (db : Pfdb) (p : Pfn) (f : Hold → Hold) : PfnSystem :=
  ⟨db, Function.update s.hold p (f (s.hold p))⟩

/-- The locked steps. -/
inductive PfnAction
  | allocate
  | free (p : Pfn)
  | addReference (p : Pfn)
  | setPrototypePte (p : Pfn) (ptr : EntryPtr)
  | setCacheDetails (p : Pfn) (fcb offset : Nat)
  | setModifiedPfn (p : Pfn)
  | setModifiedPage (p : Pfn)
  | zeroBegin
  | zeroEnd (p : Pfn)
  | mpwBegin
  | mpwEnd (p : Pfn) (success : Bool)

/-- One locked step. -/
def PfnSystem.step (s : PfnSystem) : PfnAction → Option PfnSystem
  | .allocate =>
    match miAllocatePhysicalPageWithPfdbLocked s.db with
    | none => none
    | some (db, none, _) => some { s with db := db }
    | some (db, some p, _) => some (s.update db p fun h => { h with refs := h.refs + 1 })
  | .free p =>
    (mmFreePhysicalPage s.db p).map fun db => s.update db p fun h => { h with refs := h.refs - 1 }
  | .addReference p =>
    (miPageAddReferenceWithPfdbLocked s.db p).map fun db =>
      s.update db p fun h => { h with refs := h.refs + 1 }
  | .setPrototypePte p ptr => (mmSetPrototypePtePfn s.db p ptr).map fun db => { s with db := db }
  | .setCacheDetails p fcb offset =>
    (mmSetCacheDetailsPfn s.db p fcb offset).map fun db => { s with db := db }
  | .setModifiedPfn p => (mmSetModifiedPfn s.db p).map fun db => { s with db := db }
  | .setModifiedPage p => (mmSetModifiedPage s.db p).map fun db => { s with db := db }
  | .zeroBegin =>
    match mmZeroOutFirstPFNBegin s.db with
    | none => none
    | some (db, none) => some { s with db := db }
    | some (db, some p) => some (s.update db p fun h => { h with zeroing := true })
  | .zeroEnd p =>
    some (s.update (mmZeroOutFirstPFNEnd s.db p) p fun h => { h with zeroing := false })
  | .mpwBegin =>
    match Mm.mpwBegin s.db with
    | none => none
    | some (db, none) => some { s with db := db }
    | some (db, some p) => some (s.update db p fun h => { h with writing := true })
  | .mpwEnd p success =>
    some (s.update (Mm.mpwEnd s.db p success) p fun h => { h with writing := false })

/-- The frame is on the list `l`. -/
def Pfdb.OnList (db : Pfdb) (l : PfnList) (p : Pfn) : Prop := ∃ ps, db.IsList l ps ∧ p ∈ ps

/-- What the code expects of its callers: they free only what they hold, reference only pages in use
    or on the standby or modified list, mark only allocated pages modified, and finish only what
    they began. -/
def PfnSystem.Contract (s : PfnSystem) : PfnAction → Prop
  | .free p => 0 < (s.hold p).refs
  | .addReference p =>
    0 < (s.hold p).refs ∨ (s.hold p).writing = true ∨ s.db.OnList .standby p ∨
      s.db.OnList .modified p
  | .setModifiedPage p => 0 < (s.hold p).refs ∧ (s.db.frame p).type = .used
  | .zeroEnd p => (s.hold p).zeroing = true
  | .mpwEnd p _ => (s.hold p).writing = true
  | _ => True

/-- The frame is the only one of the list `l`. -/
def Pfdb.isOnly (db : Pfdb) (l : PfnList) (p : Pfn) : Bool :=
  p ≠ pfnInvalid && db.ends l = ⟨p, p⟩ && (db.frame p).nextFrame = pfnInvalid &&
    (db.frame p).prevFrame = pfnInvalid

theorem Pfdb.onList_of_isOnly {db : Pfdb} {l : PfnList} {p : Pfn} (h : db.isOnly l p = true) :
    db.OnList l p := by
  simp only [isOnly, Bool.and_eq_true, decide_eq_true_eq] at h
  obtain ⟨⟨⟨hp, he⟩, hnext⟩, hpr⟩ := h
  refine ⟨[p], ⟨?_, ?_, List.nodup_singleton p, ?_, hpr, hnext, trivial⟩, by simp⟩
  · rw [he]; rfl
  · rw [he]; rfl
  · simpa using Ne.symm hp

/-- A test that implies the contract, to be run on concrete states. -/
def PfnSystem.contractTest (s : PfnSystem) : PfnAction → Bool
  | .free p => 0 < (s.hold p).refs
  | .addReference p =>
    0 < (s.hold p).refs || (s.hold p).writing || s.db.isOnly .standby p || s.db.isOnly .modified p
  | .setModifiedPage p => 0 < (s.hold p).refs && (s.db.frame p).type = .used
  | .zeroEnd p => (s.hold p).zeroing
  | .mpwEnd p _ => (s.hold p).writing
  | _ => true

theorem PfnSystem.contract_of_test (s : PfnSystem) (a : PfnAction) (h : s.contractTest a = true) :
    s.Contract a := by
  cases a with
  | addReference p =>
    simp only [contractTest, Bool.or_eq_true, decide_eq_true_eq] at h
    rcases h with ((h | h) | h) | h
    · exact .inl h
    · exact .inr (.inl h)
    · exact .inr (.inr (.inl (Pfdb.onList_of_isOnly h)))
    · exact .inr (.inr (.inr (Pfdb.onList_of_isOnly h)))
  | free p | setModifiedPage p | zeroEnd p | mpwEnd p _ => simpa [contractTest, Contract] using h
  | allocate | setPrototypePte p _ | setCacheDetails p _ _ | setModifiedPfn p | zeroBegin
  | mpwBegin => trivial

/-! ## The life cycle of a frame -/

/-- Where a frame is in its life. -/
inductive Role
  /-- not managed by the database -/
  | outside
  | listed (l : PfnList)
  | inUse (refs : Nat) (writing : Bool)
  | zeroing
  deriving DecidableEq, Repr

/-- What the threads hold of a frame in this role. -/
def Role.hold : Role → Hold
  | .outside => {}
  | .listed _ => {}
  | .inUse refs writing => { refs := refs, writing := writing }
  | .zeroing => { zeroing := true }

/-- What the entry of a frame in this role looks like. -/
def FrameOk : Role → Pfdbe → Prop
  | .outside, _ => True
  | .listed .zero, e => e.type = .zeroed ∧ e.refCount = 0
  | .listed .free, e => e.type = .free ∧ e.refCount = 0
  | .listed .standby, e => e.type = .transition ∧ e.refCount = 0 ∧ e.prototypePte ≠ 0
  | .listed .modified, e =>
    e.type = .used ∧ e.refCount = 0 ∧ e.prototypePte ≠ 0 ∧ e.isInModifiedPageList = true
  | .inUse refs writing, e =>
    0 < refs + writing.toNat ∧ e.refCount = refs + writing.toNat ∧
      (e.type = .used ∨ e.type = .reclaim ∧ e.modified = false) ∧
      (writing = true → e.type = .used ∧ e.prototypePte ≠ 0 ∧ e.isInModifiedPageList = false)
  | .zeroing, e => e.type = .zeroed ∧ e.refCount = 0

/-- The frame counts as free: it is on the zero, free or standby list, or on its way from the free to
    the zero list. -/
def Role.isFree : Role → Bool
  | .listed .zero | .listed .free | .listed .standby | .zeroing => true
  | _ => false

/-- What a step does to `MmTotalFreePages`. -/
inductive Tally
  | same
  | up
  | down
  deriving DecidableEq, Repr

def Tally.apply : Tally → Nat → Nat
  | .same, n => n
  | .up, n => addW n 1
  | .down, n => subW n 1

/-- The transitions of a frame's life cycle: from one role and entry to the next, under an action and
    with its effect on the free page counter. Entries are taken without their links. -/
inductive FrameStep (p : Pfn) : PfnAction → Role → Pfdbe → Role → Pfdbe → Tally → Prop
  | allocate (l : PfnList) (e : Pfdbe) (hl : l ≠ .modified) :
    FrameStep p .allocate (.listed l) e (.inUse 1 false)
      { e with type := .used, refCount := 1, prototypePte := 0 } .down
  | release (e : Pfdbe) (refs : Nat) (writing : Bool) (h : 0 < refs + writing.toNat) :
    FrameStep p (.free p) (.inUse (refs + 1) writing) e (.inUse refs writing)
      { e with refCount := e.refCount - 1 } .same
  | releaseFree (e : Pfdbe) (h : e.prototypePte = 0) :
    FrameStep p (.free p) (.inUse 1 false) e (.listed .free)
      { e with refCount := e.refCount - 1, isInModifiedPageList := false, type := .free } .up
  | releaseStandby (e : Pfdbe) (h : e.prototypePte ≠ 0) (hm : e.modified = false) :
    FrameStep p (.free p) (.inUse 1 false) e (.listed .standby)
      { e with refCount := e.refCount - 1, isInModifiedPageList := false, type := .transition } .up
  | releaseModified (e : Pfdbe) (h : e.prototypePte ≠ 0) (hm : e.modified = true) :
    FrameStep p (.free p) (.inUse 1 false) e (.listed .modified)
      { e with refCount := e.refCount - 1, isInModifiedPageList := true } .same
  | addReference (e : Pfdbe) (refs : Nat) (writing : Bool) :
    FrameStep p (.addReference p) (.inUse refs writing) e (.inUse (refs + 1) writing)
      { e with refCount := e.refCount + 1 } .same
  | detransition (e : Pfdbe) (l : PfnList) (hl : l = .standby ∨ l = .modified) :
    FrameStep p (.addReference p) (.listed l) e (.inUse 1 false)
      { e with refCount := 1, type := .used } .same
  | setPrototypePte (ptr : EntryPtr) (r : Role) (e : Pfdbe) :
    FrameStep p (.setPrototypePte p ptr) r e r { e with prototypePte := ptr.addr % 2 ^ 48 } .same
  | setCacheDetails (fcb offset : Nat) (r : Role) (e : Pfdbe) :
    FrameStep p (.setCacheDetails p fcb offset) r e r
      { e with fcb := fcb % 2 ^ 48, offsetLower := offset / pageSize % 2 ^ 32,
               offsetUpper := offset / pageSize / 2 ^ 32 % 2 ^ 16, isFileCache := true,
               modified := false } .same
  | setModifiedPfn (r : Role) (e : Pfdbe) (h : e.type = .used) :
    FrameStep p (.setModifiedPfn p) r e r { e with modified := true } .same
  | setModifiedPage (r : Role) (e : Pfdbe) (h : e.type = .used) :
    FrameStep p (.setModifiedPage p) r e r { e with modified := true } .same
  | zeroBegin (e : Pfdbe) :
    FrameStep p .zeroBegin (.listed .free) e .zeroing { e with type := .zeroed } .same
  | zeroEnd (e : Pfdbe) : FrameStep p (.zeroEnd p) .zeroing e (.listed .zero) e .same
  | mpwSkip (e : Pfdbe) (hm : e.modified = false) :
    FrameStep p .mpwBegin (.listed .modified) e (.listed .standby)
      { e with isInModifiedPageList := false, type := .transition, modified := false } .up
  | mpwBegin (e : Pfdbe) (hm : e.modified = true) :
    FrameStep p .mpwBegin (.listed .modified) e (.inUse 0 true)
      { e with isInModifiedPageList := false, refCount := e.refCount + 1, modified := false } .same
  | mpwLeave (e : Pfdbe) (success : Bool) (refs : Nat) :
    FrameStep p (.mpwEnd p success) (.inUse (refs + 1) true) e (.inUse (refs + 1) false)
      { e with refCount := e.refCount - 1 } .same
  | mpwStandby (e : Pfdbe) :
    FrameStep p (.mpwEnd p true) (.inUse 0 true) e (.listed .standby)
      { e with refCount := e.refCount - 1, type := .transition, modified := false } .up
  | mpwReinsert (e : Pfdbe) :
    FrameStep p (.mpwEnd p false) (.inUse 0 true) e (.listed .modified)
      { e with refCount := e.refCount - 1, isInModifiedPageList := true, modified := true } .same

/-- The life cycle keeps the entry in the shape of its role. -/
theorem FrameStep.frameOk {p : Pfn} {a : PfnAction} {r r' : Role} {e e' : Pfdbe} {t : Tally}
    (h : FrameStep p a r e r' e' t) (hr : FrameOk r e) : FrameOk r' e' := by
  cases h with
  | allocate l e hl => simp [FrameOk]
  | release e refs wr h =>
    obtain ⟨-, hc, hy, hw⟩ := hr
    exact ⟨h, by simp only [hc]; push_cast; omega, hy, hw⟩
  | releaseFree e h => exact ⟨rfl, by simp [hr.2.1]⟩
  | releaseStandby e h hm => exact ⟨rfl, by simp [hr.2.1], h⟩
  | releaseModified e h hm =>
    obtain ⟨-, hc, hy, -⟩ := hr
    refine ⟨hy.resolve_right fun hre => ?_, by simp [hc], h, rfl⟩
    simp [hre.2] at hm
  | addReference e refs wr =>
    obtain ⟨-, hc, hy, hw⟩ := hr
    exact ⟨by omega, by simp only [hc]; push_cast; omega, hy, hw⟩
  | detransition e l hl => simp [FrameOk]
  | setPrototypePte ptr r e =>
    have hne := ptr.low_ne_zero
    rcases r with _ | l | ⟨refs, wr⟩ | _
    · trivial
    · cases l <;> simp_all [FrameOk]
    · exact ⟨hr.1, hr.2.1, hr.2.2.1, fun hw => ⟨(hr.2.2.2 hw).1, hne, (hr.2.2.2 hw).2.2⟩⟩
    · exact hr
  | setCacheDetails fcb off r e =>
    rcases r with _ | l | ⟨refs, wr⟩ | _
    · trivial
    · cases l <;> simpa [FrameOk] using hr
    · exact ⟨hr.1, hr.2.1, hr.2.2.1.imp_right fun h => ⟨h.1, rfl⟩, hr.2.2.2⟩
    · exact hr
  | setModifiedPfn r e h | setModifiedPage r e h =>
    rcases r with _ | l | ⟨refs, wr⟩ | _
    · trivial
    · cases l <;> simpa [FrameOk] using hr
    · exact ⟨hr.1, hr.2.1, .inl h, hr.2.2.2⟩
    · exact hr
  | zeroBegin e => exact ⟨rfl, hr.2⟩
  | zeroEnd e => exact hr
  | mpwSkip e hm => exact ⟨rfl, hr.2.1, hr.2.2.1⟩
  | mpwBegin e hm => simp_all [FrameOk]
  | mpwLeave e suc refs =>
    obtain ⟨-, hc, hy, hw⟩ := hr
    exact ⟨by simp, by simp only [hc]; simp, hy, fun h => by simp at h⟩
  | mpwStandby e => exact ⟨rfl, by simp [hr.2.1], (hr.2.2.2 rfl).2.1⟩
  | mpwReinsert e => exact ⟨(hr.2.2.2 rfl).1, by simp [hr.2.1], (hr.2.2.2 rfl).2.1, rfl⟩

/-- A frame the database does not manage stays so. -/
theorem FrameStep.outside {p : Pfn} {a : PfnAction} {r' : Role} {e e' : Pfdbe} {t : Tally}
    (h : FrameStep p a .outside e r' e' t) : r' = .outside := by
  cases h <;> rfl

theorem FrameStep.of_zeroBegin {p : Pfn} {r r' : Role} {e e' : Pfdbe} {t : Tally}
    (h : FrameStep p .zeroBegin r e r' e' t) :
    r = .listed .free ∧ r' = .zeroing ∧ e' = { e with type := .zeroed } := by
  cases h
  exact ⟨rfl, rfl, rfl⟩

theorem FrameStep.of_zeroEnd {p : Pfn} {r r' : Role} {e e' : Pfdbe} {t : Tally}
    (h : FrameStep p (.zeroEnd p) r e r' e' t) :
    r = .zeroing ∧ r' = .listed .zero ∧ e' = e := by
  cases h
  exact ⟨rfl, rfl, rfl⟩

theorem FrameStep.of_allocate {p : Pfn} {r r' : Role} {e e' : Pfdbe} {t : Tally}
    (h : FrameStep p .allocate r e r' e' t) : ∃ l, l ≠ .modified ∧ r = .listed l ∧
      r' = .inUse 1 false ∧ e'.type = .used ∧ e'.refCount = 1 := by
  cases h with
  | allocate l e hl => exact ⟨l, hl, rfl, rfl, rfl, rfl⟩

/-! ## The database follows the life cycle -/

/-- The lists of the database and the hands of the threads are those of the roles. -/
structure Refines (s : PfnSystem) (L : PfnList → List Pfn) (role : Pfn → Role) : Prop where
  linked : Linked s.db L
  mem_iff : ∀ l p, p ∈ L l ↔ role p = .listed l
  hold_eq : ∀ p, s.hold p = (role p).hold
  invalid : role pfnInvalid = .outside
  frameOk : ∀ p, FrameOk (role p) (s.db.frame p)

/-- The step took the frame `p` along its life cycle and left all others alone. -/
def Moved (s s' : PfnSystem) (role : Pfn → Role) (a : PfnAction) (p : Pfn) : Prop :=
  ∃ r' t L', FrameStep p a (role p) (s.db.frame p).unlinked r' (s'.db.frame p).unlinked t ∧
    (∀ q, q ≠ p → (s'.db.frame q).unlinked = (s.db.frame q).unlinked) ∧
    s'.db.totalFreePages = t.apply s.db.totalFreePages ∧
    Refines s' L' (update role p r')

variable {s s' : PfnSystem} {db' : Pfdb} {L L' : PfnList → List Pfn} {role : Pfn → Role}
  {a : PfnAction} {p q : Pfn} {r r' : Role} {e e' : Pfdbe} {t : Tally} {l : PfnList}

theorem frameOk_unlinked : FrameOk r e.unlinked ↔ FrameOk r e := by
  rcases r with _ | l | ⟨refs, writing⟩ | _
  · rfl
  · cases l <;> rfl
  · rfl
  · rfl

theorem frameOk_congr (he : e'.unlinked = e.unlinked) (h : FrameOk r e) : FrameOk r e' := by
  rw [← frameOk_unlinked, he, frameOk_unlinked]
  exact h

theorem Refines.mem_lists (h : Refines s L role) (hp : ∀ l, role p ≠ .listed l) : ∀ l, p ∉ L l :=
  fun l hl => hp l ((h.mem_iff l p).1 hl)

theorem Refines.ne_invalid (h : Refines s L role) (hp : role p ≠ .outside) : p ≠ pfnInvalid := by
  rintro rfl
  exact hp h.invalid

/-- Assemble a move from the new entry of the frame, the new lists and the new hold. -/
theorem Refines.moved (h : Refines s L role) (r' : Role) (t : Tally) (hp : p ≠ pfnInvalid)
    (hst : FrameStep p a (role p) (s.db.frame p).unlinked r' (db'.frame p).unlinked t)
    (hot : ∀ q, q ≠ p → (db'.frame q).unlinked = (s.db.frame q).unlinked)
    (htl : db'.totalFreePages = t.apply s.db.totalFreePages) (hL : Linked db' L')
    (hme : ∀ l q, q ∈ L' l ↔ update role p r' q = .listed l) {f : Hold → Hold}
    (hf : f (role p).hold = r'.hold) : Moved s (s.update db' p f) role a p := by
  refine ⟨r', t, L', hst, hot, htl, hL, hme, ?_, ?_, ?_⟩
  · intro q
    by_cases hq : q = p
    · subst hq
      simp [PfnSystem.update, h.hold_eq, hf]
    · simp [PfnSystem.update, hq, h.hold_eq]
  · rw [update_of_ne (Ne.symm hp), h.invalid]
  · intro q
    by_cases hq : q = p
    · subst hq
      rw [update_self]
      exact frameOk_unlinked.1 (hst.frameOk (frameOk_unlinked.2 (h.frameOk q)))
    · rw [update_of_ne hq]
      exact frameOk_congr (hot q hq) (h.frameOk q)

/-- The hold stays: the step only stored into the entry. -/
theorem PfnSystem.update_self_hold (s : PfnSystem) (db : Pfdb) (p : Pfn) :
    s.update db p id = { s with db := db } := by
  simp [PfnSystem.update]

/-! ### Which lists the frames are on -/

theorem Refines.mem_unlisted (h : Refines s L role) (hr : ∀ l, role p ≠ .listed l)
    (hr' : ∀ l, r' ≠ .listed l) (l : PfnList) (q : Pfn) :
    q ∈ L l ↔ update role p r' q = .listed l := by
  by_cases hq : q = p
  · subst hq
    simp [h.mem_lists hr l, hr' l]
  · rw [update_of_ne hq, h.mem_iff]

theorem Refines.mem_same (h : Refines s L role) (l : PfnList) (q : Pfn) :
    q ∈ L l ↔ update role p (role p) q = .listed l := by
  rw [update_eq_self, h.mem_iff]

theorem Refines.mem_erase (h : Refines s L role) (r' : Role) (hr : role p = .listed l)
    (hr' : ∀ l, r' ≠ .listed l) (m : PfnList) (q : Pfn) :
    q ∈ update L l ((L l).erase p) m ↔ update role p r' q = .listed m := by
  have hnd := (h.linked.isList l).nodup
  by_cases hm : m = l
  · subst hm
    rw [update_self, hnd.mem_erase_iff, h.mem_iff]
    by_cases hq : q = p
    · simp [hq, hr' m]
    · simp [hq]
  · rw [update_of_ne hm, h.mem_iff]
    by_cases hq : q = p
    · subst hq
      simpa [hr' m, hr] using Ne.symm hm
    · rw [update_of_ne hq]

theorem mem_pushed (hme : ∀ l q, q ∈ L l ↔ role q = .listed l) (hr : ∀ l, role p ≠ .listed l)
    (m : PfnList) (q : Pfn) :
    q ∈ update L l (L l ++ [p]) m ↔ update role p (.listed l) q = .listed m := by
  by_cases hq : q = p
  · subst hq
    have hnt : ∀ m, q ∉ L m := fun m hm => hr m ((hme m q).1 hm)
    rw [update_self, update_apply]
    split
    · next hm => subst hm; simp
    · next hm => simpa [hnt m] using Ne.symm hm
  · rw [update_of_ne hq, update_apply]
    split
    · next hm => subst hm; simp [hq, hme]
    · exact hme m q

/-! ## The operations -/

variable {f : Pfdbe → Pfdbe}

theorem Refines.store (h : Refines s L role) (hp : p ≠ pfnInvalid) (hf : KeepsLinks f)
    (hst : FrameStep p a (role p) (s.db.frame p).unlinked (role p) (f (s.db.frame p)).unlinked .same) :
    Moved s { s with db := s.db.modify p f } role a p := by
  rw [← PfnSystem.update_self_hold s _ p]
  refine h.moved (role p) .same hp ?_ ?_ ?_ (h.linked.modify_of_links p hf) h.mem_same ?_
  · simpa using hst
  · intro q hq
    rw [Pfdb.modify_frame, if_neg hq]
  · rfl
  · rfl

variable {g : Hold → Hold}

theorem Refines.storeUnlisted (h : Refines s L role) (r' : Role) (hp : p ≠ pfnInvalid)
    (f : Pfdbe → Pfdbe) (hr : ∀ l, role p ≠ .listed l) (hr' : ∀ l, r' ≠ .listed l)
    (hst : FrameStep p a (role p) (s.db.frame p).unlinked r' (f (s.db.frame p)).unlinked .same) (hg : g (role p).hold = r'.hold) :
    Moved s (s.update (s.db.modify p f) p g) role a p := by
  refine h.moved r' .same hp ?_ ?_ ?_ (h.linked.modify_of_not_mem (h.mem_lists hr) f)
    (h.mem_unlisted hr hr') hg
  · simpa using hst
  · intro q hq
    rw [Pfdb.modify_frame, if_neg hq]
  · rfl

theorem Refines.takeOff (h : Refines s L role) (r' : Role) (t : Tally)
    (hr : role p = .listed l) (hr' : ∀ l, r' ≠ .listed l) {k : Pfdbe → Pfdbe}
    (hk : KeepsLinks k) (hf : ∀ e, (f e).unlinked = (f e.unlinked).unlinked)
    (hst : FrameStep p a (role p) (s.db.frame p).unlinked r' (f (k (s.db.frame p))).unlinked t)
    (hfr : db'.frame = ((mmpRemovePfnFromList (s.db.modify p k) l p).modify p f).frame)
    (he : db'.ends = (mmpRemovePfnFromList (s.db.modify p k) l p).ends)
    (htl : db'.totalFreePages = t.apply s.db.totalFreePages) (hg : g (role p).hold = r'.hold) :
    Moved s (s.update db' p g) role a p := by
  have hp : p ∈ L l := (h.mem_iff l p).2 hr
  have hme := h.mem_erase r' hr hr'
  have hof : ∀ m, p ∉ update L l ((L l).erase p) m := by
    intro m hm
    have := (hme m p).1 hm
    rw [update_self] at this
    exact hr' m this
  have hL := ((h.linked.modify_of_links p hk).remove hp).modify_of_not_mem hof f
  refine h.moved r' t (h.linked.ne_invalid hp) ?_ ?_ htl (hL.congr he fun _ _ _ => by simp [hfr]) hme hg
  · rw [hfr, Pfdb.modify_frame_self, hf, mmpRemovePfnFromList_unlinked, Pfdb.modify_frame_self, ← hf]
    exact hst
  · intro q hq
    rw [hfr, Pfdb.modify_frame, if_neg hq, mmpRemovePfnFromList_unlinked, Pfdb.modify_frame, if_neg hq]

/-- Put a frame on a list, after a store that keeps its links and before another one. -/
theorem Refines.putOn (h : Refines s L role) (t : Tally) (hp : p ≠ pfnInvalid)
    (hr : ∀ l, role p ≠ .listed l) (f g : Pfdbe → Pfdbe)
    (hg : KeepsLinks g)
    (hst : FrameStep p a (role p) (s.db.frame p).unlinked (.listed l) (g (f (s.db.frame p))).unlinked t)
    (hfr : db'.frame = ((mmpAddPfnToList (s.db.modify p f) l p).modify p g).frame)
    (he : db'.ends = (mmpAddPfnToList (s.db.modify p f) l p).ends)
    (htl : db'.totalFreePages = t.apply s.db.totalFreePages)
    {k : Hold → Hold} (hk : k (role p).hold = {}) :
    Moved s (s.update db' p k) role a p := by
  have hL := ((h.linked.modify_of_not_mem (h.mem_lists hr) f).add (l := l) (h.mem_lists hr)
    hp).modify_of_links p hg
  refine h.moved (.listed l) t hp ?_ ?_ htl (hL.congr he fun _ _ _ => by simp [hfr])
    (mem_pushed h.mem_iff hr) hk
  · rw [hfr, Pfdb.modify_frame_self, hg.unlinked, mmpAddPfnToList_unlinked,
      Pfdb.modify_frame_self, ← hg.unlinked]
    exact hst
  · intro q hq
    rw [hfr, Pfdb.modify_frame, if_neg hq, mmpAddPfnToList_unlinked, Pfdb.modify_frame, if_neg hq]

/-! ### Allocation -/

variable {res : Option Pfn} {c : Option Nat}

theorem mmpAllocateFromFreeList_cases
    (h : Refines s L role) (hrn : mmpAllocateFromFreeList s.db l = some (db', res, c)) :
    (res = none ∧ c = none ∧ db' = s.db ∧ L l = []) ∨ ∃ p, res = some p ∧ role p = .listed l ∧
        mmpInitializePfn (mmpRemovePfnFromList s.db l p) p = some (db', c) := by
  have hl := h.linked.isList l
  simp only [mmpAllocateFromFreeList] at hrn
  split at hrn
  · next he =>
      simp only [some.injEq, Prod.mk.injEq] at hrn
      obtain ⟨rfl, rfl, rfl⟩ := hrn
      exact .inl ⟨rfl, rfl, rfl, hl.first_eq_nil_iff.1 he⟩
  · next hne =>
      obtain ⟨l', hl'⟩ := hl.exists_cons hne
      have hrole : role (s.db.ends l).first = .listed l := by
        rw [← h.mem_iff, hl']
        exact List.mem_cons_self
      split at hrn
      · simp at hrn
      · next db1 c1 hin =>
          split at hrn
          · simp at hrn
          · simp only [some.injEq, Prod.mk.injEq] at hrn
            obtain ⟨rfl, rfl, rfl⟩ := hrn
            exact .inr ⟨_, rfl, hrole, hin⟩

/-- A frame of a list of free pages is initialized; a standby page hands back its cache entry. -/
theorem mmpInitializePfn_of_free (h : Refines s L role) (hr : role p = .listed l) (hl : l ≠ .modified)
    (hin : mmpInitializePfn (mmpRemovePfnFromList s.db l p) p = some (db', c)) :
    db' = ((mmpRemovePfnFromList s.db l p).modify p fun e =>
        { e with type := .used, refCount := 1, nextFrame := 0, prevFrame := 0,
                 prototypePte := 0 }).decFree ∧
      c = if l = .standby then some (pfdbePrototypePte (s.db.frame p)) else none := by
  obtain ⟨hy, -, hp, -⟩ := Pfdbe.fields_of_unlinked
    (show ((mmpRemovePfnFromList s.db l p).frame p).unlinked = (s.db.frame p).unlinked from
      mmpRemovePfnFromList_unlinked)
  have hok := h.frameOk p
  rw [hr] at hok
  simp only [mmpInitializePfn, pfdbePrototypePte, hy, hp] at hin ⊢
  cases l with
  | zero | free =>
    rw [hok.1] at hin
    simp only [reduceCtorEq, false_and, if_false, some.injEq, Prod.mk.injEq] at hin
    exact ⟨hin.1.symm, hin.2.symm⟩
  | standby =>
    rw [hok.1] at hin
    simp only [reduceCtorEq, if_false, hok.2.2, and_false, if_true, some.injEq, Prod.mk.injEq] at hin
    exact ⟨hin.1.symm, hin.2.symm⟩
  | modified => exact absurd rfl hl

theorem mmpAllocateFromFreeList_moved (h : Refines s L role) (hl : l ≠ .modified)
    (hrn : mmpAllocateFromFreeList s.db l = some (db', some p, c)) :
    role p = .listed l ∧ c = (if l = .standby then some (pfdbePrototypePte (s.db.frame p)) else none) ∧
      Moved s (s.update db' p fun h => { h with refs := h.refs + 1 }) role .allocate p := by
  rcases mmpAllocateFromFreeList_cases h hrn with ⟨hrs, -⟩ | ⟨p', hrs, hr, hin⟩
  · simp at hrs
  · obtain rfl : p = p' := some.inj hrs
    obtain ⟨rfl, hc⟩ := mmpInitializePfn_of_free h hr hl hin
    refine ⟨hr, hc, ?_⟩
    rw [← Pfdb.modify_id s.db p]
    refine h.takeOff (.inUse 1 false) .down hr (by simp) ?_ ?_ ?_ (Pfdb.decFree_frame _)
      (Pfdb.decFree_ends _) ?_ ?_
    · exact ⟨fun _ => rfl, fun _ => rfl, fun _ => rfl⟩
    · exact fun _ => rfl
    · rw [hr]
      exact .allocate l _ hl
    · rw [Pfdb.decFree_total, Pfdb.modify_total, mmpRemovePfnFromList_total]
      rfl
    · rw [hr]; rfl

/-- `MiAllocatePhysicalPageWithPfdbLocked` takes the first frame of the first non-empty list among
    zero, free and standby, and reports the cache entry of a standby page it reclaims. -/
theorem miAllocatePhysicalPage_moved {z : Bool} (h : Refines s L role)
    (hrn : miAllocatePhysicalPageWithPfdbLocked s.db = some (db', res, c, z)) :
    (res = none ∧ db' = s.db ∧ ∀ l, l ≠ .modified → L l = []) ∨ ∃ p l, res = some p ∧ l ≠ .modified ∧ role p = .listed l ∧
      c = (if l = .standby then some (pfdbePrototypePte (s.db.frame p)) else none) ∧
      Moved s (s.update db' p fun h => { h with refs := h.refs + 1 }) role .allocate p := by
  have hsm : ∀ l p c, l ≠ .modified →
      mmpAllocateFromFreeList s.db l = some (db', some p, c) → ∃ p' l', some p = some p' ∧
        l' ≠ .modified ∧ role p' = .listed l' ∧
        c = (if l' = .standby then some (pfdbePrototypePte (s.db.frame p')) else none) ∧
        Moved s (s.update db' p' fun h => { h with refs := h.refs + 1 }) role .allocate p' := by
    intro l p c hl hr
    obtain ⟨hrole, hc, hm⟩ := mmpAllocateFromFreeList_moved h hl hr
    exact ⟨p, l, rfl, hl, hrole, hc, hm⟩
  have hnn : ∀ l db1 c, mmpAllocateFromFreeList s.db l = some (db1, none, c) →
      db1 = s.db ∧ L l = [] := by
    intro l db1 c hr
    rcases mmpAllocateFromFreeList_cases h hr with ⟨-, -, hb⟩ | ⟨p, hp, -⟩
    · exact hb
    · simp at hp
  unfold miAllocatePhysicalPageWithPfdbLocked at hrn
  split at hrn
  · simp at hrn
  · next db1 p1 c1 h1 =>
      simp only [some.injEq, Prod.mk.injEq] at hrn
      obtain ⟨rfl, rfl, rfl, -⟩ := hrn
      exact .inr (hsm _ _ _ (by decide) h1)
  · next db1 c1 h1 =>
      obtain ⟨rfl, hz⟩ := hnn _ _ _ h1
      split at hrn
      · simp at hrn
      · next db2 p2 c2 h2 =>
          simp only [some.injEq, Prod.mk.injEq] at hrn
          obtain ⟨rfl, rfl, rfl, -⟩ := hrn
          exact .inr (hsm _ _ _ (by decide) h2)
      · next db2 c2 h2 =>
          obtain ⟨rfl, hf⟩ := hnn _ _ _ h2
          split at hrn
          · simp at hrn
          · next db3 p3 c3 h3 =>
              simp only [some.injEq, Prod.mk.injEq] at hrn
              obtain ⟨rfl, rfl, rfl, -⟩ := hrn
              cases p3 with
              | none =>
                obtain ⟨hb, hsb⟩ := hnn _ _ _ h3
                exact .inl ⟨rfl, hb, fun l hl => by cases l <;> first | assumption | exact absurd rfl hl⟩
              | some p3 => exact .inr (hsm _ _ _ (by decide) h3)

/-! ### References -/

theorem Refines.inUse_of_refs (h : Refines s L role) (hp : 0 < (s.hold p).refs) :
    ∃ refs writing, role p = .inUse (refs + 1) writing := by
  rw [h.hold_eq] at hp
  rcases hr : role p with _ | l | ⟨refs, writing⟩ | _
  · simp [hr, Role.hold] at hp
  · simp [hr, Role.hold] at hp
  · rw [hr] at hp
    obtain ⟨n, hn⟩ : ∃ n, refs = n + 1 := ⟨refs - 1, by simp [Role.hold] at hp; omega⟩
    exact ⟨n, writing, by rw [hn]⟩
  · simp [hr, Role.hold] at hp

theorem Refines.inUse_of_writing (h : Refines s L role) (hp : (s.hold p).writing = true) :
    ∃ refs, role p = .inUse refs true := by
  rw [h.hold_eq] at hp
  rcases hr : role p with _ | l | ⟨refs, writing⟩ | _
  · simp [hr, Role.hold] at hp
  · simp [hr, Role.hold] at hp
  · simp only [hr, Role.hold] at hp
    exact ⟨refs, by rw [hp]⟩
  · simp [hr, Role.hold] at hp

variable {refs : Nat}

variable {wr : Bool}

section

variable (h : Refines s L role)
include h

theorem Refines.held_of_inUse (hr : role p = .inUse refs wr) :
    0 < (s.hold p).refs ∨ (s.hold p).writing = true := by
  have hok := h.frameOk p
  rw [hr] at hok
  rw [h.hold_eq, hr]
  cases wr with
  | true => exact .inr rfl
  | false => exact .inl hok.1

theorem Refines.zeroing_of_hold (hp : (s.hold p).zeroing = true) :
    role p = .zeroing := by
  rw [h.hold_eq] at hp
  rcases hr : role p with _ | l | ⟨refs, writing⟩ | _ <;> simp [hr, Role.hold] at hp ⊢

theorem Refines.listed_of_onList (hp : s.db.OnList l p) :
    role p = .listed l := by
  obtain ⟨ps, hps, hme⟩ := hp
  rw [← h.mem_iff, (h.linked.isList l).unique hps]
  exact hme

theorem mmFreePhysicalPage_moved (hp : 0 < (s.hold p).refs)
    (hrn : mmFreePhysicalPage s.db p = some db') :
    Moved s (s.update db' p fun h => { h with refs := h.refs - 1 }) role (.free p) p := by
  obtain ⟨refs, writing, hr⟩ := h.inUse_of_refs hp
  have hpn : p ≠ pfnInvalid := h.ne_invalid (by simp [hr])
  have hu : ∀ l, role p ≠ .listed l := by simp [hr]
  have hok := h.frameOk p
  rw [hr] at hok
  obtain ⟨-, hc, -, -⟩ := hok
  simp only [mmFreePhysicalPage, if_neg hpn, Pfdb.modify_frame_self] at hrn
  split at hrn
  · simp at hrn
  split at hrn
  · simp at hrn
  split at hrn
  · -- the last reference: nobody else, and no writer, has one
    next hls =>
    rw [hc] at hls
    obtain ⟨rfl, rfl⟩ : refs = 0 ∧ writing = false := by
      cases writing <;> simp at hls ⊢ <;> omega
    split at hrn
    · simp at hrn
    rw [← some.inj hrn, freeLastReference]
    simp only [Pfdb.modify_modify, Pfdb.modify_frame_self]
    split
    · next hpr =>
        split
        · next hmd =>
            refine h.putOn .same hpn hu _ _ ?_ ?_ rfl rfl ?_ ?_
            · exact ⟨fun _ => rfl, fun _ => rfl, fun _ => rfl⟩
            · rw [hr]
              exact .releaseModified _ hpr hmd
            · simp [Tally.apply]
            · rw [hr]; rfl
        · next hmd =>
            refine h.putOn .up hpn hu _ _ ?_ ?_ (Pfdb.incFree_frame _) (Pfdb.incFree_ends _) ?_ ?_
            · exact ⟨fun _ => rfl, fun _ => rfl, fun _ => rfl⟩
            · rw [hr]
              exact .releaseStandby _ hpr (Bool.eq_false_iff.2 hmd)
            · simp [Tally.apply]
            · rw [hr]; rfl
    · next hpr =>
        refine h.putOn .up hpn hu _ _ ?_ ?_ (Pfdb.incFree_frame _) (Pfdb.incFree_ends _) ?_ ?_
        · exact ⟨fun _ => rfl, fun _ => rfl, fun _ => rfl⟩
        · rw [hr]
          exact .releaseFree _ (not_not.1 hpr)
        · simp [Tally.apply]
        · rw [hr]; rfl
  · next hmr =>
      rw [← some.inj hrn]
      refine h.storeUnlisted (.inUse refs writing) hpn _ hu (by simp) ?_ ?_
      · rw [hr]
        refine .release _ refs writing ?_
        rw [hc] at hmr
        push_cast at hmr
        omega
      · rw [hr]; rfl

theorem miPageAddReference_moved_of_inUse (hr : role p = .inUse refs wr)
    (hrn : miPageAddReferenceWithPfdbLocked s.db p = some db') :
    Moved s (s.update db' p fun h => { h with refs := h.refs + 1 }) role (.addReference p) p := by
  have hp : p ≠ pfnInvalid := h.ne_invalid (by simp [hr])
  have hok := h.frameOk p
  rw [hr] at hok
  have hmr : ¬ (s.db.frame p).refCount + 1 ≤ 1 := by
    rw [hok.2.1]
    have := hok.1
    omega
  simp only [miPageAddReferenceWithPfdbLocked, if_neg hp, Pfdb.modify_frame_self, if_neg hmr,
    some.injEq] at hrn
  rw [← hrn]
  refine h.storeUnlisted (.inUse (refs + 1) wr) hp _ (by simp [hr]) (by simp) ?_ ?_
  · rw [hr]
    exact .addReference _ refs wr
  · rw [hr]; rfl

theorem miPageAddReference_moved_of_listed
    (hl : l = .standby ∨ l = .modified) (hr : role p = .listed l)
    (hrn : miPageAddReferenceWithPfdbLocked s.db p = some db') :
    Moved s (s.update db' p fun h => { h with refs := h.refs + 1 }) role (.addReference p) p := by
  have hpl : p ∈ L l := (h.mem_iff l p).2 hr
  have hpn := h.linked.ne_invalid hpl
  have hok := h.frameOk p
  rw [hr] at hok
  obtain ⟨hc, hp⟩ : (s.db.frame p).refCount = 0 ∧ (s.db.frame p).prototypePte ≠ 0 := by
    rcases hl with rfl | rfl
    · exact ⟨hok.2.1, hok.2.2⟩
    · exact ⟨hok.2.1, hok.2.2.1⟩
  -- the count is raised first, so removal runs over a database that already has the new count
  have hln := h.linked.modify_of_links p (f := fun e => { e with refCount := e.refCount + 1 })
    ⟨fun _ => rfl, fun _ => rfl, fun _ => rfl⟩
  have hdt := miDetransitionPfn_eq hln hl hpl (by simpa using hp)
  simp [miPageAddReferenceWithPfdbLocked, hpn, hc, hdt] at hrn
  rw [← hrn]
  refine h.takeOff (.inUse 1 false) .same hr (by simp) ?_ ?_ ?_ rfl rfl ?_ ?_
  · exact ⟨fun _ => rfl, fun _ => rfl, fun _ => rfl⟩
  · exact fun _ => rfl
  · rw [hr]
    exact .detransition _ l hl
  · simp [Tally.apply]
  · rw [hr]; rfl

end

/-! ### Zeroing -/

/-- The first half of `MmZeroOutFirstPFN` takes the first free frame, if there is one. -/
theorem mmZeroOutFirstPFNBegin_moved (h : Refines s L role)
    (hrn : mmZeroOutFirstPFNBegin s.db = some (db', res)) :
    (res = none ∧ db' = s.db) ∨ ∃ p, res = some p ∧
      Moved s (s.update db' p fun h => { h with zeroing := true }) role .zeroBegin p := by
  have hl := h.linked.isList .free
  simp only [mmZeroOutFirstPFNBegin] at hrn
  split at hrn
  · simp only [some.injEq, Prod.mk.injEq] at hrn
    exact .inl ⟨hrn.2.symm, hrn.1.symm⟩
  · next hne =>
      obtain ⟨l', hl'⟩ := hl.exists_cons hne
      have hr : role (s.db.ends .free).first = .listed .free := by
        rw [← h.mem_iff, hl']
        exact List.mem_cons_self
      have hok := h.frameOk (s.db.ends .free).first
      rw [hr] at hok
      simp only [hok.1, reduceCtorEq, if_false, ne_eq, not_true, some.injEq, Prod.mk.injEq] at hrn
      refine .inr ⟨_, hrn.2.symm, ?_⟩
      rw [← hrn.1, ← Pfdb.modify_id (mmpRemovePfnFromList _ _ _) (s.db.ends .free).first]
      refine h.takeOff .zeroing .same hr (by simp) ?_ ?_ ?_ rfl rfl ?_ ?_
      · exact ⟨fun _ => rfl, fun _ => rfl, fun _ => rfl⟩
      · exact fun _ => rfl
      · rw [hr]
        exact .zeroBegin _
      · simp [Tally.apply]
      · rw [hr]; rfl

theorem mmZeroOutFirstPFNEnd_moved (h : Refines s L role) (hr : role p = .zeroing) :
    Moved s (s.update (mmZeroOutFirstPFNEnd s.db p) p fun h => { h with zeroing := false }) role
      (.zeroEnd p) p := by
  have hp : p ≠ pfnInvalid := h.ne_invalid (by simp [hr])
  rw [mmZeroOutFirstPFNEnd, ← Pfdb.modify_id (mmpAddPfnToList _ _ _) p, ← Pfdb.modify_id s.db p]
  refine h.putOn .same hp (by simp [hr]) _ _ ?_ ?_ rfl rfl ?_ ?_
  · exact ⟨fun _ => rfl, fun _ => rfl, fun _ => rfl⟩
  · rw [hr]
    exact .zeroEnd _
  · simp [Tally.apply]
  · rw [hr]; rfl

/-! ### The modified page writer -/

theorem miRemoveOneModifiedPfn_cases (h : Refines s L role)
    (hrn : miRemoveOneModifiedPfn s.db = some (db', res)) :
    (res = none ∧ db' = s.db) ∨ ∃ p, res = some p ∧ role p = .listed .modified ∧
      db' = (mmpRemovePfnFromList s.db .modified p).modify p fun e =>
        { e with isInModifiedPageList := false } := by
  unfold miRemoveOneModifiedPfn at hrn
  split at hrn
  · simp at hrn
  · next db1 c1 ha =>
      simp only [some.injEq, Prod.mk.injEq] at hrn
      rcases mmpAllocateFromFreeList_cases h ha with ⟨-, -, hb, -⟩ | ⟨p, hp, -⟩
      · exact .inl ⟨hrn.2.symm, hrn.1.symm.trans hb⟩
      · simp at hp
  · next db1 p1 c1 ha =>
      simp only [some.injEq, Prod.mk.injEq] at hrn
      rcases mmpAllocateFromFreeList_cases h ha with ⟨hp, -⟩ | ⟨p, hp, hr, hin⟩
      · simp at hp
      · obtain rfl : p1 = p := some.inj hp
        have hok := h.frameOk p1
        rw [hr] at hok
        -- a page on the modified list is still marked "used", so nothing is initialized
        obtain ⟨hy, -⟩ := Pfdbe.fields_of_unlinked
          (show ((mmpRemovePfnFromList s.db .modified p1).frame p1).unlinked
            = (s.db.frame p1).unlinked from mmpRemovePfnFromList_unlinked)
        simp only [mmpInitializePfn, hy, hok.1, if_true, some.injEq, Prod.mk.injEq] at hin
        exact .inr ⟨p1, hrn.2.symm, hr, by rw [← hrn.1, hin.1]⟩

/-- A page of the modified list that is not modified any more moves over to the standby list. -/
theorem Refines.moved_of_skip (h : Refines s L role) (hr : role p = .listed .modified)
    (hm : (s.db.frame p).modified = false) :
    Moved s
      { s with
        db := miTransformPageToStandbyPfn ((mmpRemovePfnFromList s.db .modified p).modify p fun e =>
          { e with isInModifiedPageList := false }) p } role .mpwBegin p := by
  have hp : p ∈ L .modified := (h.mem_iff _ p).2 hr
  have hpn := h.linked.ne_invalid hp
  have hu : ((mmpRemovePfnFromList s.db .modified p).frame p).unlinked
    = (s.db.frame p).unlinked := mmpRemovePfnFromList_unlinked
  obtain ⟨hy, hc, -, -, -⟩ := Pfdbe.fields_of_unlinked hu
  have hok := h.frameOk p
  rw [hr] at hok
  -- for the moment between the two list operations the frame is on no list
  have hme := h.mem_erase .outside hr (by simp)
  have hof : ∀ m, p ∉ update L .modified ((L .modified).erase p) m := by
    intro m hm
    simpa using (hme m p).1 hm
  have hrn : miTransformPageToStandbyPfn ((mmpRemovePfnFromList s.db .modified p).modify p fun e =>
        { e with isInModifiedPageList := false }) p =
      ((mmpAddPfnToList ((mmpRemovePfnFromList s.db .modified p).modify p fun e =>
        { e with isInModifiedPageList := false }) .standby p).modify p fun e =>
          { e with type := .transition, modified := false }).incFree := by
    simp [miTransformPageToStandbyPfn, hy, hc, hok.1, hok.2.1]
  have hf : KeepsLinks fun e => { e with isInModifiedPageList := false } :=
    ⟨fun _ => rfl, fun _ => rfl, fun _ => rfl⟩
  have hg : KeepsLinks fun e => { e with type := .transition, modified := false } :=
    ⟨fun _ => rfl, fun _ => rfl, fun _ => rfl⟩
  have hL := ((((h.linked.remove hp).modify_of_links p hf).add (l := .standby) hof
    hpn).modify_of_links p hg).incFree
  rw [hrn, ← PfnSystem.update_self_hold s _ p]
  refine h.moved (.listed .standby) .up hpn ?_ ?_ ?_ hL ?_ ?_
  · rw [Pfdb.incFree_frame, Pfdb.modify_frame_self, hg.unlinked, mmpAddPfnToList_unlinked,
      Pfdb.modify_frame_self, hf.unlinked, hu, hr]
    exact .mpwSkip _ hm
  · intro q hq
    rw [Pfdb.incFree_frame, Pfdb.modify_frame, if_neg hq, mmpAddPfnToList_unlinked,
      Pfdb.modify_frame, if_neg hq, mmpRemovePfnFromList_unlinked]
  · simp [Tally.apply]
  · intro m q
    rw [mem_pushed hme (by simp), update_idem]
  · rw [hr]; rfl

/-- The writer's turn up to the write: it skips an empty list, turns an unmodified page into a
    standby page, or takes a page to write. -/
theorem mpwBegin_moved (h : Refines s L role) (hrn : mpwBegin s.db = some (db', res)) :
    (res = none ∧ db' = s.db) ∨ (∃ p, res = none ∧ Moved s { s with db := db' } role .mpwBegin p) ∨
      ∃ p, res = some p ∧
        Moved s (s.update db' p fun h => { h with writing := true }) role .mpwBegin p := by
  unfold mpwBegin at hrn
  split at hrn
  · simp at hrn
  · next db1 hrm =>
      simp only [some.injEq, Prod.mk.injEq] at hrn
      rcases miRemoveOneModifiedPfn_cases h hrm with ⟨-, hb⟩ | ⟨p, hp, -⟩
      · exact .inl ⟨hrn.2.symm, hrn.1.symm.trans hb⟩
      · simp at hp
  · next db1 p hrm =>
      rcases miRemoveOneModifiedPfn_cases h hrm with ⟨hp, -⟩ | ⟨p', hp, hr, hb⟩
      · simp at hp
      obtain rfl : p = p' := some.inj hp
      obtain ⟨hy, hc, -, hmd, -⟩ := Pfdbe.fields_of_unlinked
        (show ((mmpRemovePfnFromList s.db .modified p).frame p).unlinked
          = (s.db.frame p).unlinked from mmpRemovePfnFromList_unlinked)
      have hok := h.frameOk p
      rw [hr] at hok
      subst hb
      right
      split at hrn
      · next hm =>
          left
          simp only [some.injEq, Prod.mk.injEq] at hrn
          refine ⟨p, hrn.2.symm, ?_⟩
          rw [← hrn.1]
          exact h.moved_of_skip hr (by simpa [hmd] using hm)
      · next hm =>
          right
          simp only [some.injEq, Prod.mk.injEq] at hrn
          refine ⟨p, hrn.2.symm, ?_⟩
          rw [← hrn.1, Pfdb.modify_modify, ← Pfdb.modify_id s.db p]
          refine h.takeOff (.inUse 0 true) .same hr (by simp) ?_ ?_ ?_ rfl rfl ?_ ?_
          · exact ⟨fun _ => rfl, fun _ => rfl, fun _ => rfl⟩
          · exact fun _ => rfl
          · rw [hr]
            refine .mpwBegin _ (show (s.db.frame p).modified = true from ?_)
            simpa [hmd] using hm
          · simp [Tally.apply]
          · rw [hr]; rfl

theorem mpwEnd_moved (suc : Bool) (h : Refines s L role) (hr : role p = .inUse refs true) :
    Moved s (s.update (mpwEnd s.db p suc) p fun h => { h with writing := false }) role
      (.mpwEnd p suc) p := by
  have hp : p ≠ pfnInvalid := h.ne_invalid (by simp [hr])
  have hu : ∀ l, role p ≠ .listed l := by simp [hr]
  have hok := h.frameOk p
  rw [hr] at hok
  obtain ⟨-, hc, -, hw⟩ := hok
  obtain ⟨hy, -, hfl⟩ := hw rfl
  have hc : (s.db.frame p).refCount - 1 = refs := by rw [hc]; simp
  cases refs with
  | zero =>
    cases suc with
    | true =>
      have hrn : mpwEnd s.db p true = ((mmpAddPfnToList (s.db.modify p fun e =>
          { e with refCount := e.refCount - 1 }) .standby p).modify p fun e =>
            { e with type := .transition, modified := false }).incFree := by
        simp [mpwEnd, miTransformPageToStandbyPfn, hc, hy, hfl]
      rw [hrn]
      refine h.putOn .up hp hu _ _ ?_ ?_ (Pfdb.incFree_frame _) (Pfdb.incFree_ends _) ?_ ?_
      · exact ⟨fun _ => rfl, fun _ => rfl, fun _ => rfl⟩
      · rw [hr]
        exact .mpwStandby _
      · simp [Tally.apply]
      · rw [hr]; rfl
    | false =>
      have hrn : mpwEnd s.db p false = (mmpAddPfnToList (s.db.modify p fun e =>
          { e with refCount := e.refCount - 1 }) .modified p).modify p fun e =>
            { e with isInModifiedPageList := true, modified := true } := by
        simp [mpwEnd, miReinsertIntoModifiedList, hc, hy, hfl]
      rw [hrn]
      refine h.putOn .same hp hu _ _ ?_ ?_ rfl rfl ?_ ?_
      · exact ⟨fun _ => rfl, fun _ => rfl, fun _ => rfl⟩
      · rw [hr]
        exact .mpwReinsert _
      · simp [Tally.apply]
      · rw [hr]; rfl
  | succ refs =>
    have hrn : mpwEnd s.db p suc = s.db.modify p fun e => { e with refCount := e.refCount - 1 } := by
      cases suc <;>
        simp [mpwEnd, miTransformPageToStandbyPfn, miReinsertIntoModifiedList, hc]
    rw [hrn]
    refine h.storeUnlisted (.inUse (refs + 1) false) hp _ hu (by simp) ?_ ?_
    · rw [hr]
      exact .mpwLeave _ suc refs
    · rw [hr]; rfl

/-! ## The simulation -/

/-- **One step of the code moves one frame along its life cycle**, or finds no frame on the lists it
    looks at. -/
theorem PfnSystem.step_moved (h : Refines s L role) (hC : s.Contract a) (hs : s.step a = some s') :
    (s' = s ∧ (a = .allocate ∨ a = .zeroBegin ∨ a = .mpwBegin) ∧
      (a = .allocate → ∀ l, l ≠ .modified → L l = [])) ∨ ∃ p, Moved s s' role a p := by
  cases a with
  | allocate =>
    simp only [step] at hs
    split at hs
    · simp at hs
    · next db1 c1 ha =>
        rcases miAllocatePhysicalPage_moved h ha with ⟨-, hb, hnil⟩ | ⟨p, l, hp, -⟩
        · exact .inl ⟨by rw [← some.inj hs, hb], by simp, fun _ => hnil⟩
        · simp at hp
    · next db1 p1 c1 ha =>
        rcases miAllocatePhysicalPage_moved h ha with ⟨hp, -⟩ | ⟨p, l, hp, -, -, -, hm⟩
        · simp at hp
        · obtain rfl : p1 = p := some.inj hp
          exact .inr ⟨p1, some.inj hs ▸ hm⟩
  | free p =>
    obtain ⟨db1, hrn, rfl⟩ := map_eq_some_iff.1 hs
    exact .inr ⟨p, mmFreePhysicalPage_moved h hC hrn⟩
  | addReference p =>
    obtain ⟨db1, hrn, rfl⟩ := map_eq_some_iff.1 hs
    refine .inr ⟨p, ?_⟩
    rcases hC with hrf | hwr | hls | hls
    · obtain ⟨refs, writing, hr⟩ := h.inUse_of_refs hrf
      exact miPageAddReference_moved_of_inUse h hr hrn
    · obtain ⟨refs, hr⟩ := h.inUse_of_writing hwr
      exact miPageAddReference_moved_of_inUse h hr hrn
    · exact miPageAddReference_moved_of_listed h (.inl rfl) (h.listed_of_onList hls) hrn
    · exact miPageAddReference_moved_of_listed h (.inr rfl) (h.listed_of_onList hls) hrn
  | setPrototypePte p ptr =>
    obtain ⟨db1, hrn, rfl⟩ := map_eq_some_iff.1 hs
    simp only [mmSetPrototypePtePfn] at hrn
    split at hrn
    · simp at hrn
    · next hpn =>
        rw [← some.inj hrn]
        refine .inr ⟨p, h.store hpn ?_ (.setPrototypePte ptr _ _)⟩
        exact ⟨fun _ => rfl, fun _ => rfl, fun _ => rfl⟩
  | setCacheDetails p fcb offset =>
    obtain ⟨db1, hrn, rfl⟩ := map_eq_some_iff.1 hs
    simp only [mmSetCacheDetailsPfn] at hrn
    split at hrn
    · simp at hrn
    · next hpn =>
        rw [← some.inj hrn]
        refine .inr ⟨p, h.store hpn ?_ (.setCacheDetails fcb offset _ _)⟩
        exact ⟨fun _ => rfl, fun _ => rfl, fun _ => rfl⟩
  | setModifiedPfn p =>
    obtain ⟨db1, hrn, rfl⟩ := map_eq_some_iff.1 hs
    simp only [mmSetModifiedPfn] at hrn
    split at hrn
    · simp at hrn
    · next hpn =>
        split at hrn
        · simp at hrn
        · next hy =>
            rw [← some.inj hrn]
            refine .inr ⟨p, h.store hpn ?_ (.setModifiedPfn _ _ (not_not.1 hy))⟩
            exact ⟨fun _ => rfl, fun _ => rfl, fun _ => rfl⟩
  | setModifiedPage p =>
    obtain ⟨db1, hrn, rfl⟩ := map_eq_some_iff.1 hs
    simp only [mmSetModifiedPage] at hrn
    split at hrn
    · simp at hrn
    · next hpn =>
        rw [← some.inj hrn]
        refine .inr ⟨p, h.store hpn ?_ (.setModifiedPage _ _ hC.2)⟩
        exact ⟨fun _ => rfl, fun _ => rfl, fun _ => rfl⟩
  | zeroBegin =>
    simp only [step] at hs
    split at hs
    · simp at hs
    · next db1 hz =>
        rcases mmZeroOutFirstPFNBegin_moved h hz with ⟨-, hb⟩ | ⟨p, hp, -⟩
        · exact .inl ⟨by rw [← some.inj hs, hb], by simp, PfnAction.noConfusion⟩
        · simp at hp
    · next db1 p1 hz =>
        rcases mmZeroOutFirstPFNBegin_moved h hz with ⟨hp, -⟩ | ⟨p, hp, hm⟩
        · simp at hp
        · obtain rfl : p1 = p := some.inj hp
          exact .inr ⟨p1, some.inj hs ▸ hm⟩
  | zeroEnd p =>
    exact .inr ⟨p, some.inj hs ▸ mmZeroOutFirstPFNEnd_moved h (h.zeroing_of_hold hC)⟩
  | mpwBegin =>
    simp only [step] at hs
    split at hs
    · simp at hs
    · next db1 hw =>
        rcases mpwBegin_moved h hw with ⟨-, hb⟩ | ⟨p, -, hm⟩ | ⟨p, hp, -⟩
        · exact .inl ⟨by rw [← some.inj hs, hb], by simp, PfnAction.noConfusion⟩
        · exact .inr ⟨p, some.inj hs ▸ hm⟩
        · simp at hp
    · next db1 p1 hw =>
        rcases mpwBegin_moved h hw with ⟨hp, -⟩ | ⟨p, hp, -⟩ | ⟨p, hp, hm⟩
        · simp at hp
        · simp at hp
        · obtain rfl : p1 = p := some.inj hp
          exact .inr ⟨p1, some.inj hs ▸ hm⟩
  | mpwEnd p success =>
    obtain ⟨refs, hr⟩ := h.inUse_of_writing hC
    exact .inr ⟨p, some.inj hs ▸ mpwEnd_moved success h hr⟩

/-- The database follows the life cycle along every step. -/
theorem PfnSystem.step_refines (h : Refines s L role) (hC : s.Contract a)
    (hs : s.step a = some s') : ∃ L' role', Refines s' L' role' := by
  rcases step_moved h hC hs with ⟨rfl, -⟩ | ⟨p, r', t, L', -, -, -, h'⟩
  · exact ⟨L, role, h⟩
  · exact ⟨L', _, h'⟩

/-! ## What that says about the lists -/

/-- The shape of the four frame lists: each is a finite acyclic list whose ends and links agree in
    both directions, no frame is on two of them, and every frame on a list has no references and the
    type of its list. -/
structure Pfdb.ListsOk (db : Pfdb) (L : PfnList → List Pfn) : Prop where
  isList : ∀ l, db.IsList l (L l)
  disjoint : ∀ l m p, p ∈ L l → p ∈ L m → l = m
  unreferenced : ∀ l p, 0 < (db.frame p).refCount → p ∉ L l
  zero : ∀ p ∈ L .zero, (db.frame p).type = .zeroed
  free : ∀ p ∈ L .free, (db.frame p).type = .free
  standby : ∀ p ∈ L .standby, (db.frame p).type = .transition ∧ (db.frame p).prototypePte ≠ 0
  modified : ∀ p ∈ L .modified, (db.frame p).type = .used ∧ (db.frame p).refCount = 0

theorem Refines.listsOk (h : Refines s L role) : s.db.ListsOk L := by
  have hok : ∀ l, ∀ p ∈ L l, FrameOk (.listed l) (s.db.frame p) := by
    intro l p hp
    rw [← (h.mem_iff l p).1 hp]
    exact h.frameOk p
  refine ⟨h.linked.isList, h.linked.disjoint, ?_, ?_, ?_, ?_, ?_⟩
  · intro l p hc hp
    have hz : (s.db.frame p).refCount = 0 := by
      cases l with
      | zero | free => exact (hok _ p hp).2
      | standby | modified => exact (hok _ p hp).2.1
    rw [hz] at hc
    omega
  · exact fun p hp => (hok _ p hp).1
  · exact fun p hp => (hok _ p hp).1
  · exact fun p hp => ⟨(hok _ p hp).1, (hok _ p hp).2.2⟩
  · exact fun p hp => ⟨(hok _ p hp).1, (hok _ p hp).2.1⟩

end Boron.Mm
