import Boron.Mm.HeapPartition
import Boron.Mm.Vad

/-! # Containment in the user range

Every node of a process, free or mapped, stays between `MM_FIRST_USER_PAGE` and `MM_LAST_USER_PAGE`,
and decommit and clean-up write page table entries of the user half only, as long as a fixed range
does not wrap into the node found for it and an overridden range ends where the trims of
`MmOverrideAddressRange` expect it to. The heap only ever makes nodes inside nodes it had, so the
arguments below need neither order nor disjointness. -/

namespace Boron.Mm

open List Option

/-- The node covers user addresses only, with no wrap-around. -/
def InUserRange (n : AddressNode) : Prop :=
  mmFirstUserPage ≤ n.startVa ∧ n.limit ≤ mmLastUserPage

/-- A node of a process: page aligned and in the user range. -/
structure UserNode (n : AddressNode) : Prop where
  aligned : n.startVa % pageSize = 0
  inRange : InUserRange n

/-- All nodes of a list are. -/
def UserNodes (t : List AddressNode) : Prop := ∀ n ∈ t, UserNode n

namespace UserNode

variable {m n : AddressNode} {va k : Nat}

theorem part (h : UserNode n) (ha : m.startVa % pageSize = 0) (hlo : n.startVa ≤ m.startVa)
    (hh : m.limit ≤ n.limit) : UserNode m :=
  ⟨ha, h.inRange.1.trans hlo, hh.trans h.inRange.2⟩

theorem aligned_add (h : va % pageSize = 0) (k : Nat) : (va + k * pageSize) % pageSize = 0 := by
  rw [Nat.add_mul_mod_self_right, h]

theorem limit_lt (h : UserNode n) : n.limit < wordSize :=
  h.inRange.2.trans_lt (by decide)

theorem startVa_lt (h : UserNode n) : n.startVa < wordSize :=
  (Nat.le_add_right _ _).trans_lt h.limit_lt

theorem endVa_eq (h : UserNode n) : n.endVa = n.limit := by
  rw [AddressNode.endVa_eq, Nat.mod_eq_of_lt h.limit_lt]

theorem addW_pages (h : UserNode n) (hle : va + k * pageSize ≤ n.limit) :
    addW va (mulW k pageSize) = va + k * pageSize := by
  rw [addW_mulW_pageSize, Nat.mod_eq_of_lt (hle.trans_lt h.limit_lt)]

end UserNode

/-! ## The heap -/

/-- An allocation leaves contained nodes and hands out a contained node. -/
def HeapResult.InUser (res : HeapResult) : Prop :=
  UserNodes res.tree ∧ ∀ out ∈ res.outNode, UserNode out

section

variable {c : Cursor AddressNode} {t : HeapTree} {va n : Nat}

theorem UserNodes.entry (h : UserNodes c.toTree) : UserNode c.entry :=
  h _ (by simp [Cursor.toTree])

theorem UserNodes.remove (h : UserNodes c.toTree) : UserNodes c.remove :=
  fun m hm => h m (c.toTree_perm.mem_iff.2 (mem_cons_of_mem _ hm))

/-- A refused or failed allocation. -/
theorem HeapResult.InUser.unchanged {status : Status} (h : UserNodes t) :
    HeapResult.InUser ⟨status, t, none⟩ :=
  ⟨h, by simp⟩

theorem HeapResult.InUser.taken {status : Status} {d : Cursor AddressNode} {out : AddressNode}
    (hd : UserNodes d.remove) (hot : UserNode out) :
    HeapResult.InUser ⟨status, d.remove, some out⟩ := by
  refine ⟨hd, fun o ho => ?_⟩
  rw [mem_some_iff] at ho
  exact ho ▸ hot

theorem UserNodes.insertIgnoring {x : AddressNode} (h : UserNodes c.remove)
    (hx : UserNode x) : UserNodes (insertIgnoring c x).remove := by
  intro m hm
  rcases (Cursor.insertItem_getD AddressNode.startVa c x).2 m hm with hm | hm
  · exact hm ▸ hx
  · exact h m hm

variable {td pool : Bool}

theorem allocateSpaceAt_inUser {res : HeapResult}
    (ht : UserNodes c.toTree) (h : allocateSpaceAt n td pool c = some res) :
    res.InUser := by
  have hnd := ht.entry
  simp only [allocateSpaceAt, mmpCreateRegionHeap] at h
  split at h
  · rw [← some.inj h]
    exact .taken ht.remove hnd
  split at h
  · simp at h
  next hne hlt =>
  cases pool with
  | false =>
    rw [← some.inj h]
    exact .unchanged ht
  | true =>
    simp only [if_true, some.injEq] at h
    rw [← h]
    cases td with
    | true =>
      have hva : addW c.entry.startVa (mulW (c.entry.size - n) pageSize) =
          c.entry.startVa + (c.entry.size - n) * pageSize := by
        apply hnd.addW_pages
        simp only [AddressNode.limit, pageSize]
        omega
      simp only [if_true, hva]
      refine .taken (UserNodes.insertIgnoring ht.remove (hnd.part hnd.aligned le_rfl ?_))
        (hnd.part (UserNode.aligned_add hnd.aligned _) (Nat.le_add_right _ _) ?_) <;>
      · simp only [AddressNode.limit, pageSize]
        omega
    | false =>
      have hva : addW c.entry.startVa (mulW n pageSize) = c.entry.startVa + n * pageSize := by
        apply hnd.addW_pages
        simp only [AddressNode.limit, pageSize]
        omega
      simp only [Bool.false_eq_true, if_false, hva]
      refine .taken (UserNodes.insertIgnoring ht.remove
        (hnd.part (UserNode.aligned_add hnd.aligned _) (Nat.le_add_right _ _) ?_))
        (hnd.part hnd.aligned le_rfl ?_) <;>
      · simp only [AddressNode.limit, pageSize]
        omega

theorem mmAllocateAddressSpace_inUser (ht : UserNodes t) : (mmAllocateAddressSpace t n td pool).InUser := by
  have hb : ∀ {res : HeapResult} {c : Cursor AddressNode}, c.toTree = t →
      allocateSpaceAt n td pool c = some res → res.InUser := by
    intro res c hc h
    exact allocateSpaceAt_inUser (hc ▸ ht) h
  simp only [mmAllocateAddressSpace]
  split
  · cases h : forDown (allocateSpaceAt n td pool) t.reverse [] with
    | none => exact .unchanged ht
    | some res =>
      obtain ⟨c, hc, hrs⟩ := forDown_eq_some h
      exact hb (by simpa using hc) hrs
  · cases h : forUp (allocateSpaceAt n td pool) [] t with
    | none => exact .unchanged ht
    | some res =>
      obtain ⟨c, hc, hrs⟩ := forUp_eq_some h
      exact hb (by simpa using hc) hrs

variable {pool1 pool2 : Bool}

theorem allocateRangeAt_inUser (ht : UserNodes c.toTree)
    (ha : va % pageSize = 0) (hva : c.entry.startVa ≤ va)
    (hw : ¬ HeapSystem.WrapsInto c.entry va n) :
    (allocateRangeAt c va n pool1 pool2).InUser := by
  have hnd := ht.entry
  have he : HoldsRange c.entry va n → va + n * pageSize ≤ c.entry.limit := by
    rintro ⟨hsize, hft⟩
    by_contra hlt
    exact hw ⟨by omega, by omega, by omega⟩
  have hot : HoldsRange c.entry va n → UserNode ⟨va, n⟩ := fun hholds =>
    hnd.part ha hva (he hholds)
  refine allocateRangeAt_cases c va n pool1 pool2 (fun _ _ => .unchanged ht)
    (fun _ _ => .taken ht.remove hnd) (fun hholds hst _ => ?_) (fun hholds hst hls => ?_)
    fun hholds hst hls => ?_
  · subst hst
    have hrg : UserNode ⟨c.entry.startVa + n * pageSize, c.entry.size - n⟩ := by
      refine hnd.part (UserNode.aligned_add ha _) (Nat.le_add_right _ _) ?_
      have hsize := hholds.1
      simp only [AddressNode.limit, pageSize]
      omega
    rw [hnd.addW_pages (he hholds)]
    exact .taken (UserNodes.insertIgnoring ht.remove hrg) (hot hholds)
  · have hlf : UserNode ⟨c.entry.startVa, c.entry.size - n⟩ := by
      refine hnd.part hnd.aligned le_rfl ?_
      simp only [AddressNode.limit, pageSize]
      omega
    have hc : subW c.entry.endVa (mulW n pageSize) = va := by
      rw [hls, hnd.addW_pages (he hholds), ← Nat.mod_eq_of_lt ((he hholds).trans_lt hnd.limit_lt)]
      exact subW_mulW_pageSize (hot hholds).startVa_lt rfl
    rw [hc]
    exact .taken (UserNodes.insertIgnoring ht.remove hlf) (hot hholds)
  · have he := he hholds
    have hnd2 : subW c.entry.endVa (va + n * pageSize) = c.entry.limit - (va + n * pageSize) := by
      rw [hnd.endVa_eq]
      exact subW_of_le he hnd.limit_lt
    rw [subW_of_le hva (hot hholds).startVa_lt, hnd.addW_pages he, hnd2]
    have hfs : UserNode ⟨c.entry.startVa, (va - c.entry.startVa) / pageSize⟩ := by
      refine hnd.part hnd.aligned le_rfl ?_
      simp only [AddressNode.limit, pageSize] at *
      omega
    have hsn : UserNode ⟨va + n * pageSize, (c.entry.limit - (va + n * pageSize)) / pageSize⟩ := by
      refine hnd.part (UserNode.aligned_add ha _) (hva.trans (Nat.le_add_right _ _)) ?_
      simp only [AddressNode.limit, pageSize] at *
      omega
    exact .taken (UserNodes.insertIgnoring (UserNodes.insertIgnoring ht.remove hfs) hsn) (hot hholds)

theorem mmAllocateAddressRange_inUser (ht : UserNodes t)
    (hw : ∀ c, lookUpApproximate AddressNode.startVa t (pageBase va) = some c →
      ¬ HeapSystem.WrapsInto c.entry (pageBase va) (rangePages va n)) :
    (mmAllocateAddressRange t va n pool1 pool2).InUser := by
  simp only [mmAllocateAddressRange]
  split
  · exact .unchanged ht
  · next c hc =>
      obtain ⟨htree, hle⟩ := lookUpApproximate_eq_some hc
      exact allocateRangeAt_inUser (htree ▸ ht) (pageBase_mod va) hle (hw c hc)

theorem mmpTryMergeNext_inUser (ht : UserNodes c.toTree) : UserNodes (mmpTryMergeNext c).toTree := by
  obtain ⟨l, e, r⟩ := c
  cases r with
  | nil => exact ht
  | cons next r =>
    simp only [mmpTryMergeNext]
    split
    · next ha =>
        have he : UserNode e := ht.entry
        have hnext : UserNode next := ht next (by simp [Cursor.toTree])
        rw [he.endVa_eq] at ha
        have hlm : AddressNode.limit ⟨e.startVa, e.size + next.size⟩ = next.limit := by
          rw [AddressNode.limit_extend, ← ha, AddressNode.limit]
        have hsize : addW e.size next.size = e.size + next.size := by
          apply addW_of_lt
          have hlt : AddressNode.limit ⟨e.startVa, e.size + next.size⟩ < wordSize :=
            hlm ▸ hnext.limit_lt
          simp only [AddressNode.limit, pageSize] at hlt
          omega
        intro m hm
        simp only [Cursor.toTree, mem_append, mem_cons, mem_reverse] at hm
        rcases hm with hm | hm | hm
        · exact ht m (by simp [Cursor.toTree, hm])
        · rw [hm, hsize]
          exact ⟨he.aligned, he.inRange.1, hlm.le.trans hnext.inRange.2⟩
        · exact ht m (by simp [Cursor.toTree, hm])
    · exact ht

theorem mmFreeAddressSpace_inUser {node : AddressNode} (ht : UserNodes t)
    (hnd : UserNode node) : UserNodes (mmFreeAddressSpace t node).2 := by
  simp only [mmFreeAddressSpace]
  split
  · exact ht
  · next c hc =>
      obtain ⟨he, hrm⟩ := toTree_of_insertItem hc
      have hct : UserNodes c.toTree := by
        intro m hm
        have hme := c.toTree_perm.mem_iff.1 hm
        rw [he, hrm] at hme
        rcases mem_cons.1 hme with hm | hm
        · exact hm ▸ hnd
        · exact ht m hm
      have hmr := mmpTryMergeNext_inUser hct
      split
      · exact hmr
      · next p hp => exact mmpTryMergeNext_inUser (Cursor.prev_toTree hp ▸ hmr)

end

/-! ## Page tables -/

/-- Only entries of the user half were written. -/
def InUserHalf (log : List Nat) : Prop := ∀ va ∈ log, va ≤ mmUserSpaceEnd

theorem InUserHalf.cons {log : List Nat} {va : Nat} (h : InUserHalf log) (hva : va < mmLastUserPage) :
    InUserHalf (va :: log) := by
  intro w hw
  rcases mem_cons.1 hw with hw | hw
  · rw [hw]
    exact hva.le.trans (by decide)
  · exact h w hw

/-- Where a page table loop stands: `va` is no further than the page counter `i` says. A start inside
    a page is made up for at the first skip. -/
def Tracks (startVa i va : Nat) : Prop :=
  va < startVa + (i + 1) * pageSize ∧ (va % pageSize ≠ 0 → va = startVa + i * pageSize)

namespace Tracks

variable {startVa i va n : Nat}

theorem start (va : Nat) : Tracks va 0 va := by
  simp only [Tracks, pageSize]
  omega

theorem lt_limit (h : Tracks startVa i va) (hi : i < n)
    (hlm : startVa + n * pageSize ≤ mmLastUserPage) : va < mmLastUserPage := by
  simp only [Tracks, pageSize] at h hlm
  omega

theorem next (h : Tracks startVa i va) (hva : va < mmLastUserPage) :
    Tracks startVa (i + 1) (addW va pageSize) := by
  have ha : addW va pageSize = va + pageSize := by
    apply addW_of_lt
    simp only [mmLastUserPage, pageSize, wordSize] at *
    omega
  rw [ha]
  simp only [Tracks, pageSize] at *
  omega

theorem skipTable_eq (hva : va < mmLastUserPage) : skipTable va = va - va % tableSpan + tableSpan := by
  have ha : addW va tableSpan = va + tableSpan := by
    apply addW_of_lt
    simp only [mmLastUserPage, tableSpan, wordSize] at *
    omega
  rw [skipTable, ha]
  simp only [tableSpan]
  omega

theorem subW_skipTable (hva : va < mmLastUserPage) :
    subW (skipTable va) va = tableSpan - va % tableSpan := by
  rw [skipTable_eq hva, subW_of_le]
  · simp only [tableSpan]
    omega
  · simp only [tableSpan]
    omega
  · simp only [mmLastUserPage, tableSpan, wordSize] at *
    omega

theorem skip (h : Tracks startVa i va) (hva : va < mmLastUserPage) {j : Nat}
    (hj : i + subW (skipTable va) va / pageSize ≤ j) : Tracks startVa j (skipTable va) := by
  rw [subW_skipTable hva] at hj
  rw [skipTable_eq hva]
  simp only [Tracks, pageSize, tableSpan] at *
  omega

end Tracks

section

variable {t : Tables} {startVa n fuel i va : Nat} {log : List Nat}

section

variable (hlm : startVa + n * pageSize ≤ mmLastUserPage)
include hlm

theorem decommitPtes_inUserHalf {generate : Bool}
    (htr : Tracks startVa i va) (hlg : InUserHalf log) :
    InUserHalf (decommitPtes t generate n fuel i va log) := by
  induction fuel generalizing i va log with
  | zero => exact hlg
  | succ fuel ih =>
    simp only [decommitPtes]
    split
    · next hi =>
        have hva := htr.lt_limit hi hlm
        have hlg' : InUserHalf (if entersTable i va && generate then va :: log else log) := by
          split
          · exact hlg.cons hva
          · exact hlg
        generalize (if entersTable i va && generate then va :: log else log) = log' at hlg'
        split
        · exact ih (htr.skip hva le_rfl) hlg'
        · exact ih (htr.next hva) (hlg'.cons hva)
    · exact hlg

theorem cleanUpPtes_inUserHalf (htr : Tracks startVa i va) (hlg : InUserHalf log) :
    InUserHalf (cleanUpPtes t n fuel i va log) := by
  induction fuel generalizing i va log with
  | zero => exact hlg
  | succ fuel ih =>
    simp only [cleanUpPtes]
    split
    · next hi =>
        have hva := htr.lt_limit hi hlm
        split
        · exact ih (htr.skip hva (Nat.le_succ _)) hlg
        · exact ih (htr.next hva) (hlg.cons hva)
    · exact hlg

theorem freeUnusedLevels_inUserHalf
    (hlg : InUserHalf log) : InUserHalf (freeUnusedLevels t startVa n log) := by
  have hfl : ∀ (ks : List Nat) (log : List Nat),
      (∀ k ∈ ks, k < (n + slotPages - 1) / slotPages) → InUserHalf log →
      InUserHalf (ks.foldl (fun log k =>
        let slot := startVa / slotSpan % 512 + k
        if t.freesBelow log slot then slot * slotSpan :: log else log) log) := by
    intro ks
    induction ks with
    | nil => exact fun log _ hlg => hlg
    | cons k ks ih =>
      intro log hks hlg
      refine ih _ (fun k' hk' => hks k' (mem_cons_of_mem _ hk')) ?_
      have hk := hks k mem_cons_self
      simp only
      split
      · intro w hw
        rcases mem_cons.1 hw with hw | hw
        · -- the slot still starts below the end of the range, hence below slot 256
          rw [hw]
          simp only [slotPages, slotSpan, pageSize, mmLastUserPage, mmUserSpaceEnd] at *
          omega
        · exact hlg w hw
      · exact hlg
  exact hfl _ _ (fun k hk => mem_range.1 hk) hlg

theorem miDecommitVad_inUserHalf {vad : Vad} {sp : Bool} (hlg : InUserHalf log) :
    InUserHalf (miDecommitVad t vad startVa n sp log).2 :=
  decommitPtes_inUserHalf hlm (Tracks.start startVa) hlg

end

theorem miReleaseVad_inUser {heap heap' : HeapTree} {log' : List Nat} {node : AddressNode}
    (hh : UserNodes heap) (hlg : InUserHalf log) (hnd : UserNode node)
    (h : miReleaseVad t heap log node = some (heap', log')) :
    UserNodes heap' ∧ InUserHalf log' := by
  simp only [miReleaseVad] at h
  split at h
  · simp only [some.injEq, Prod.mk.injEq] at h
    rw [← h.1, ← h.2]
    refine ⟨mmFreeAddressSpace_inUser hh hnd, ?_⟩
    exact freeUnusedLevels_inUserHalf hnd.inRange.2
      (cleanUpPtes_inUserHalf hnd.inRange.2 (Tracks.start _) hlg)
  · simp at h

end

/-! ## Overriding a range -/

/-- All VADs are user nodes. -/
def UserVads (vads : List Vad) : Prop := ∀ v ∈ vads, UserNode v.node

/-- The range `MmOverrideAddressRange` can take: it ends at most a page past the last user page, and
    an empty one lies strictly inside the user range. -/
def OverrideOk (startVa n : Nat) : Prop :=
  startVa + n * pageSize ≤ mmLastUserPage + pageSize ∧
    (n = 0 → 0 < startVa ∧ startVa < mmLastUserPage)

instance (startVa n : Nat) : Decidable (OverrideOk startVa n) :=
  inferInstanceAs (Decidable (_ ∧ (_ → _)))

section

variable {startVa n : Nat}

theorem OverrideOk.endVa (h : OverrideOk startVa n) :
    addW startVa (mulW n pageSize) = startVa + n * pageSize := by
  rw [addW_mulW_pageSize, Nat.mod_eq_of_lt]
  exact h.1.trans_lt (by decide)

/-- The parts of a node that a range `[startVa, endVa)` leaves, and the parts it takes. -/
structure Leaves (startVa endVa : Nat) (node : AddressNode) : Prop where
  lower : node.startVa < startVa → startVa < node.endVa →
    UserNode ⟨node.startVa, subW startVa node.startVa / pageSize⟩
  upper : node.startVa < endVa → endVa < node.endVa →
    UserNode ⟨endVa, subW node.endVa endVa / pageSize⟩
  rest : node.startVa < endVa → endVa < node.endVa →
    UserNode ⟨addW node.startVa (subW endVa node.startVa),
      subW node.size (subW endVa node.startVa / pageSize)⟩

variable {node : AddressNode} {endVa : Nat}

/-- The three kinds of remainder are user nodes. -/
theorem UserNode.leaves (h : UserNode node)
    (hst : startVa % pageSize = 0) (he : endVa % pageSize = 0) : Leaves startVa endVa node := by
  have hlm := h.limit_lt
  have ha := h.aligned
  refine ⟨fun hlo hh => ?_, fun hlo hh => ?_, fun hlo hh => ?_⟩ <;> rw [h.endVa_eq] at hh
  · rw [subW_of_le hlo.le (hh.trans hlm)]
    refine h.part ha le_rfl ?_
    simp only [AddressNode.limit, pageSize] at *
    omega
  · rw [h.endVa_eq, subW_of_le hh.le hlm]
    refine h.part he hlo.le ?_
    simp only [AddressNode.limit, pageSize] at *
    omega
  · have hof : subW endVa node.startVa = endVa - node.startVa :=
      subW_of_le hlo.le (hh.trans hlm)
    have hva : addW node.startVa (endVa - node.startVa) = endVa := by
      rw [addW_of_lt] <;> omega
    have hle : (endVa - node.startVa) / pageSize ≤ node.size := by
      simp only [AddressNode.limit, pageSize] at *
      omega
    have hz : node.size < wordSize := by
      simp only [AddressNode.limit, pageSize] at hlm
      omega
    rw [hof, hva, subW_of_le hle hz]
    refine h.part he hlo.le ?_
    simp only [AddressNode.limit, pageSize] at *
    omega

theorem OverrideOk.endVa_mod (h : OverrideOk startVa n) (hst : startVa % pageSize = 0) :
    addW startVa (mulW n pageSize) % pageSize = 0 := by
  rw [h.endVa]
  exact UserNode.aligned_add hst n

theorem UserNode.decommit {vad : Vad} {t : Tables} {va k : Nat} {log : List Nat}
    (h : UserNode node) (he : va + k * pageSize ≤ node.limit) (hlg : InUserHalf log) :
    InUserHalf (miDecommitVad t vad va k false log).2 :=
  miDecommitVad_inUserHalf (he.trans h.inRange.2) hlg

theorem UserVads.cons {v : Vad} {vads : List Vad} (hv : UserNode v.node) (h : UserVads vads) :
    UserVads (v :: vads) := by
  intro w hw
  rcases mem_cons.1 hw with hw | hw
  · exact hw ▸ hv
  · exact h w hw

variable {left right : List Vad}

theorem UserVads.toTree_insert {v w : Vad} (hv : UserNode v.node)
    (hw : UserNode w.node) (hlf : UserVads left) (hrg : UserVads right) :
    UserVads (((Cursor.mk left v right).insertItem Vad.startVa w).getD ⟨left, v, right⟩).toTree := by
  intro u hu
  obtain ⟨he, hrm⟩ := Cursor.insertItem_getD Vad.startVa ⟨left, v, right⟩ w
  have hme := (Cursor.toTree_perm _).mem_iff.1 hu
  rw [he] at hme
  rcases mem_cons.1 hme with hme | hme
  · exact hme ▸ hv
  rcases hrm u hme with hme | hme
  · exact hme ▸ hw
  rcases mem_append.1 hme with hme | hme
  · exact hlf u (mem_reverse.1 hme)
  · exact hrg u hme

variable {heap heap' : HeapTree}

theorem overrideVads_inUser {t : Tables} {vads : List Vad}
    {log log' : List Nat} (hok : OverrideOk startVa n) (hst : startVa % pageSize = 0)
    (hlf : UserVads left) (hrg : UserVads right) (hp : UserNodes heap)
    (hlg : InUserHalf log)
    (h : overrideVads t startVa n left right heap log = some (vads, heap', log')) :
    UserVads vads ∧ UserNodes heap' ∧ InUserHalf log' := by
  induction right generalizing left heap log with
  | nil =>
    simp only [overrideVads, some.injEq, Prod.mk.injEq] at h
    obtain ⟨hvs, hh, hl⟩ := h
    subst hvs hh hl
    exact ⟨fun v hv => hlf v (mem_reverse.1 hv), hp, hlg⟩
  | cons vad right ih =>
    have hvd : UserNode vad.node := hrg vad mem_cons_self
    have hrg' : UserVads right := fun v hv => hrg v (mem_cons_of_mem _ hv)
    have hlm := hvd.limit_lt
    obtain ⟨hlw, hu, hrs⟩ := hvd.leaves hst (hok.endVa_mod hst)
    have he := hok.endVa
    simp only [overrideVads] at h
    by_cases hc : addW startVa (mulW n pageSize) ≤ vad.node.startVa ∨ vad.node.endVa ≤ startVa
    · rw [if_pos hc] at h
      exact ih (hlf.cons hvd) hrg' hp hlg h
    rw [if_neg hc] at h
    rw [not_or, not_le, not_le] at hc
    by_cases hw : startVa ≤ vad.node.startVa ∧ vad.node.endVa ≤ addW startVa (mulW n pageSize)
    · -- the whole VAD is decommitted and released
      rw [if_pos hw] at h
      have hlg1 : InUserHalf (miDecommitVad t vad vad.node.startVa vad.node.size false log).2 :=
        hvd.decommit le_rfl hlg
      cases hrl : miReleaseVad t heap
          (miDecommitVad t vad vad.node.startVa vad.node.size false log).2 vad.node with
      | none =>
        rw [hrl] at h
        cases h
      | some r =>
        rw [hrl] at h
        obtain ⟨hp1, hlg2⟩ := miReleaseVad_inUser hp hlg1 hvd hrl
        exact ih hlf hrg' hp1 hlg2 h
    rw [if_neg hw] at h
    by_cases hsp : vad.node.startVa < startVa ∧ addW startVa (mulW n pageSize) < vad.node.endVa
    · rw [if_pos hsp] at h
      simp only [some.injEq, Prod.mk.injEq] at h
      obtain ⟨hvs, hh, hl⟩ := h
      subst hvs hh hl
      refine ⟨UserVads.toTree_insert (hlw hsp.1 hc.2) (hu hc.1 hsp.2) hlf hrg', hp, ?_⟩
      refine hvd.decommit ?_ hlg
      rw [← he, ← hvd.endVa_eq]
      exact hsp.2.le
    rw [if_neg hsp] at h
    by_cases hl : vad.node.startVa < startVa ∧ vad.node.endVa ≤ addW startVa (mulW n pageSize)
    · rw [if_pos hl] at h
      refine ih (hlf.cons (hlw hl.1 hc.2)) hrg' hp (hvd.decommit ?_ hlg) h
      rw [hvd.endVa_eq, subW_of_le (hvd.endVa_eq ▸ hc.2.le) hlm]
      have := hvd.endVa_eq ▸ hc.2
      simp only [pageSize]
      omega
    rw [if_neg hl] at h
    by_cases hr : startVa ≤ vad.node.startVa ∧ addW startVa (mulW n pageSize) < vad.node.endVa
    · rw [if_pos hr] at h
      refine ih (hlf.cons (hrs hc.1 hr.2)) hrg' hp (hvd.decommit ?_ hlg) h
      have hlt := hvd.endVa_eq ▸ hr.2
      rw [subW_of_le hc.1.le (hlt.trans hlm)]
      have := hc.1
      simp only [pageSize] at *
      omega
    · rw [if_neg hr] at h
      cases h

/-- The nodes a walk over the heap leaves. -/
def HeapWalk.InUser : HeapWalk → Prop
  | .done tree => UserNodes tree
  | .split tree temp => UserNodes tree ∧ UserNode temp

theorem UserNodes.cons {m : AddressNode} {t : List AddressNode} (hm : UserNode m)
    (h : UserNodes t) : UserNodes (m :: t) := by
  intro k hk
  rcases mem_cons.1 hk with hk | hk
  · exact hk ▸ hm
  · exact h k hk

theorem overrideHeapWalk_inUser {left right : List AddressNode} {w : HeapWalk}
    (hst : startVa % pageSize = 0) (he : endVa % pageSize = 0) (hlf : UserNodes left)
    (hrg : UserNodes right) (h : overrideHeapWalk startVa endVa left right = some w) :
    w.InUser := by
  induction right generalizing left with
  | nil =>
    simp only [overrideHeapWalk, some.injEq] at h
    rw [← h]
    exact fun m hm => hlf m (mem_reverse.1 hm)
  | cons node right ih =>
    have hnd : UserNode node := hrg node mem_cons_self
    have hrg' : UserNodes right := fun m hm => hrg m (mem_cons_of_mem _ hm)
    obtain ⟨hw, hu, hrs⟩ := hnd.leaves hst he
    simp only [overrideHeapWalk] at h
    split at h
    · exact ih (hlf.cons hnd) hrg' h
    next hov =>
    rw [not_or, not_le, not_le] at hov
    split at h
    · exact ih hlf hrg' h
    split at h
    · next hp =>
        rw [← some.inj h]
        refine ⟨fun m hm => ?_, hu hov.1 hp.2⟩
        rcases mem_append.1 hm with hm | hm
        · exact hlf m (mem_reverse.1 hm)
        · exact hrg'.cons (hw hp.1 hov.2) m hm
    split at h
    · next hl => exact ih (hlf.cons (hw hl.1 hov.2)) hrg' h
    split at h
    · next hr => exact ih (hlf.cons (hrs hov.1 hr.2)) hrg' h
    · simp at h

theorem overrideHeap_inUser (hst : startVa % pageSize = 0) (he : endVa % pageSize = 0) (hh : UserNodes heap)
    (h : overrideHeap startVa endVa heap = some heap') : UserNodes heap' := by
  have hnil : UserNodes [] := fun m hm => by simp at hm
  simp only [overrideHeap] at h
  split at h
  · simp at h
  · next tree hw =>
      rw [← some.inj h]
      exact overrideHeapWalk_inUser hst he hnil hh hw
  · next tree temp hw =>
      obtain ⟨htree, htm⟩ := overrideHeapWalk_inUser hst he hnil hh hw
      split at h
      · next tree' hw' =>
          rw [← some.inj h]
          exact overrideHeapWalk_inUser hst he hnil (mmFreeAddressSpace_inUser htree htm) hw'
      · simp at h

theorem trimRange_inUser (hok : OverrideOk startVa n) (hst : startVa % pageSize = 0) :
    UserNode (trimRange startVa n) := by
  obtain ⟨hle, hz⟩ := hok
  have hb : ∀ {k : Nat}, 0 < k → k * pageSize ≤ mmLastUserPage + pageSize → subW k 1 = k - 1 := by
    intro k hk hk'
    refine subW_of_le hk ?_
    simp only [mmLastUserPage, pageSize, wordSize] at *
    omega
  have ha : ∀ {va k : Nat}, va + k * pageSize ≤ mmLastUserPage + pageSize →
      addW va (mulW k pageSize) = va + k * pageSize := by
    intro va k hk
    rw [addW_mulW_pageSize, Nat.mod_eq_of_lt (hk.trans_lt (by decide))]
  by_cases h0 : startVa = 0
  · have hn : 0 < n := by
      rcases Nat.eq_zero_or_pos n with hn | hn
      · exact absurd (hz hn).1 (by omega)
      · exact hn
    have hn1 : pageSize + (n - 1) * pageSize ≤ mmLastUserPage + pageSize := by
      simp only [pageSize] at *
      omega
    have hnt : ¬ pageSize < mmFirstUserPage := by decide
    simp only [trimRange, h0, if_true, hb hn (by omega), if_neg hnt, ha hn1]
    split
    · next hls =>
        have hn2 : 0 < n - 1 := by
          simp only [pageSize, mmLastUserPage] at hls
          omega
        rw [hb hn2 (by omega)]
        refine ⟨Nat.mod_self _, ?_⟩
        simp only [InUserRange, AddressNode.limit, pageSize, mmFirstUserPage, mmLastUserPage] at *
        omega
    · refine ⟨Nat.mod_self _, ?_⟩
      simp only [InUserRange, AddressNode.limit, pageSize, mmFirstUserPage, mmLastUserPage] at *
      omega
  · have hnt : ¬ startVa < mmFirstUserPage := by
      simp only [mmFirstUserPage, pageSize] at *
      omega
    simp only [trimRange, if_neg h0, if_neg hnt, ha hle]
    split
    · next hls =>
        have hn : 0 < n := by
          rcases Nat.eq_zero_or_pos n with hn | hn
          · have := (hz hn).2
            rw [hn] at hls
            omega
          · exact hn
        rw [hb hn (by omega)]
        refine ⟨hst, ?_⟩
        simp only [InUserRange, AddressNode.limit, pageSize, mmFirstUserPage, mmLastUserPage] at *
        omega
    · refine ⟨hst, ?_⟩
      simp only [InUserRange, AddressNode.limit, pageSize, mmFirstUserPage, mmLastUserPage] at *
      omega

end

/-! ## The services -/

namespace AddressSpace

/-- What every service keeps. -/
structure Inv (s : AddressSpace) : Prop where
  heap : UserNodes s.heap
  vads : UserVads s.vads
  written : InUserHalf s.written

/-- The ranges a reservation may ask for at a fixed address. -/
def ReserveOk (s : AddressSpace) (n flags startVa : Nat) : Prop :=
  hasFlag flags memFixed = true →
    if hasFlag flags memOverride then OverrideOk startVa n
    else ∀ c, lookUpApproximate AddressNode.startVa s.heap (pageBase startVa) = some c →
      ¬ HeapSystem.WrapsInto c.entry (pageBase startVa) (rangePages startVa n)

/-- The condition on a service call: of those that pass the checks, a reservation at a fixed address
    is within `ReserveOk`, and a partial release within `OverrideOk`. -/
def ServiceOk (s : AddressSpace) (c : ServiceCall) : Prop :=
  match c.service with
  | .allocate _ base regionSize flags protection =>
    allocateFlagsOk flags protection = true → hasFlag flags memReserve = true →
      s.ReserveOk (regionPages (allocateBase base flags) regionSize) flags
        (pageBase (allocateBase base flags))
  | .mapView _ _ base viewSize flags sectionOffset protection =>
    mapViewFlagsOk flags protection viewSize = true →
      s.ReserveOk (viewSizePages viewSize sectionOffset) (viewFlags flags) (pageBase base)
  | .free _ base regionSize flags =>
    freeFlagsOk flags = true → hasFlag flags memPartial = true →
      OverrideOk (pageBase base) (regionPages base regionSize)

variable {e : Surroundings} {s s' : AddressSpace} {status : Status} {n flags protection startVa : Nat}

variable {node : Option AddressNode}

theorem Inv.override (h : s.Inv) (hok : OverrideOk startVa n) (hst : startVa % pageSize = 0)
    (ho : mmOverrideAddressRange e s startVa n = some (status, s', node)) :
    s'.Inv ∧ ∀ out ∈ node, UserNode out := by
  simp only [mmOverrideAddressRange] at ho
  split at ho
  · split at ho
    · simp at ho
    · next vads heap log hv =>
        obtain ⟨hvd, hp, hlg⟩ := overrideVads_inUser hok hst (fun v hv => by simp at hv)
          h.vads h.heap h.written hv
        split at ho
        · simp at ho
        · next heap' hh =>
            have hp' := overrideHeap_inUser hst (hok.endVa_mod hst) hp hh
            simp only [some.injEq, Prod.mk.injEq] at ho
            obtain ⟨-, hs', hnd⟩ := ho
            subst hs' hnd
            refine ⟨⟨hp', hvd, hlg⟩, fun out hot => ?_⟩
            rw [← mem_some_iff.1 hot]
            exact trimRange_inUser hok hst
  · simp only [some.injEq, Prod.mk.injEq] at ho
    obtain ⟨-, hs', hnd⟩ := ho
    subst hs' hnd
    exact ⟨h, by simp⟩

theorem Inv.reserveNode (h : s.Inv) (hok : s.ReserveOk n flags startVa) (hst : startVa % pageSize = 0)
    (hr : reserveNode e s n flags startVa = some (status, s', node)) :
    s'.Inv ∧ ∀ out ∈ node, UserNode out := by
  have ha : ∀ res : HeapResult, res.InUser →
      some (res.status, { s with heap := res.tree }, res.outNode) = some (status, s', node) →
      s'.Inv ∧ ∀ out ∈ node, UserNode out := by
    intro res hrs heq
    simp only [some.injEq, Prod.mk.injEq] at heq
    obtain ⟨-, hs', hnd⟩ := heq
    subst hs' hnd
    exact ⟨⟨hrs.1, h.vads, h.written⟩, hrs.2⟩
  simp only [Mm.reserveNode] at hr
  split at hr
  · next hfl =>
      rw [Bool.and_eq_true] at hfl
      have hov := hok hfl.1
      rw [if_pos hfl.2] at hov
      exact h.override hov hst hr
  next hfl =>
  split at hr
  · next hx =>
      have hrn := hok hx
      rw [if_neg (by simpa [hx] using hfl)] at hrn
      exact ha _ (mmAllocateAddressRange_inUser h.heap hrn) hr
  · exact ha _ (mmAllocateAddressSpace_inUser h.heap) hr

theorem Inv.reserveVad {c : Option (Cursor Vad)} (h : s.Inv) (hok : s.ReserveOk n flags startVa)
    (hst : startVa % pageSize = 0)
    (hr : mmReserveVirtualMemoryVad e s n flags protection startVa = some (status, s', c)) :
    s'.Inv ∧ ∀ c' ∈ c, UserVads c'.remove ∧ UserNode c'.entry.node := by
  simp only [mmReserveVirtualMemoryVad] at hr
  split at hr
  · simp at hr
  · next st s1 hnd =>
      simp only [some.injEq, Prod.mk.injEq] at hr
      obtain ⟨-, hs', hc⟩ := hr
      subst hs' hc
      exact ⟨(h.reserveNode hok hst hnd).1, by simp⟩
  · next st s1 node hnd =>
      obtain ⟨hin, hot⟩ := h.reserveNode hok hst hnd
      split at hr
      · simp at hr
      · next c' hins =>
          simp only [some.injEq, Prod.mk.injEq] at hr
          obtain ⟨-, hs', hc⟩ := hr
          subst hs' hc
          refine ⟨hin, fun d hd => ?_⟩
          rw [← mem_some_iff.1 hd]
          obtain ⟨he, hrm⟩ := toTree_of_insertItem hins
          rw [he, hrm]
          exact ⟨hin.vads, hot node rfl⟩

theorem UserVads.toTree_edit {c : Cursor Vad} {v : Vad} (h : UserVads c.remove)
    (hv : UserNode v.node) : UserVads (Cursor.toTree { c with entry := v }) := by
  intro w hw
  rcases mem_cons.1 ((Cursor.toTree_perm _).mem_iff.1 hw) with hw | hw
  · exact hw ▸ hv
  · exact h w hw

theorem Inv.reserve (h : s.Inv) (hok : s.ReserveOk n flags startVa) (hst : startVa % pageSize = 0)
    (hr : mmReserveVirtualMemory e s n startVa flags protection = some (status, s')) : s'.Inv := by
  simp only [mmReserveVirtualMemory] at hr
  split at hr
  · simp at hr
  · next st s1 hvd =>
      simp only [some.injEq, Prod.mk.injEq] at hr
      rw [← hr.2]
      exact (h.reserveVad hok hst hvd).1
  · next st s1 c hvd =>
      obtain ⟨hin, hc⟩ := h.reserveVad hok hst hvd
      obtain ⟨hrm, he⟩ := hc c rfl
      simp only [some.injEq, Prod.mk.injEq] at hr
      rw [← hr.2]
      exact ⟨hin.heap, UserVads.toTree_edit hrm he, hin.written⟩

variable {pro : Option Status} {base rs : Nat}

theorem Inv.allocate (h : s.Inv)
    (hok : allocateFlagsOk flags protection = true → hasFlag flags memReserve = true →
      s.ReserveOk (regionPages (allocateBase base flags) rs) flags (pageBase (allocateBase base flags)))
    (ha : osAllocateVirtualMemory e s pro base rs flags protection = some (status, s')) :
    s'.Inv := by
  have hsm : ∀ {st : Status}, some (st, s) = some (status, s') → s'.Inv := by
    intro st heq
    rw [← (Prod.mk.inj (some.inj heq)).2]
    exact h
  simp only [osAllocateVirtualMemory] at ha
  split at ha
  · exact hsm ha
  next hfl =>
  split at ha
  · exact hsm ha
  split at ha
  · exact hsm ha
  split at ha
  · exact hsm ha
  split at ha
  · exact hsm ha
  split at ha
  · next hrs =>
      obtain ⟨⟨st, s1⟩, hr, heq⟩ := map_eq_some_iff.1 ha
      rw [← (Prod.mk.inj heq).2]
      exact h.reserve (hok (by simpa using hfl) hrs) (pageBase_mod _) hr
  split at ha
  · exact hsm ha
  · exact hsm ha

theorem Inv.mapView {obj vs so : Nat} (h : s.Inv)
    (hok : s.ReserveOk (viewSizePages vs so) (viewFlags flags) (pageBase base))
    (hm : mmpMapViewOfObject e s obj base vs flags so protection = some (status, s')) : s'.Inv := by
  simp only [mmpMapViewOfObject] at hm
  split at hm
  · simp only [some.injEq, Prod.mk.injEq] at hm
    rw [← hm.2]
    exact h
  split at hm
  · simp at hm
  · next st s1 hvd =>
      simp only [some.injEq, Prod.mk.injEq] at hm
      rw [← hm.2]
      exact (h.reserveVad hok (pageBase_mod _) hvd).1
  · next st s1 c hvd =>
      obtain ⟨hin, hc⟩ := h.reserveVad hok (pageBase_mod _) hvd
      obtain ⟨hrm, he⟩ := hc c rfl
      simp only [some.injEq, Prod.mk.injEq] at hm
      rw [← hm.2]
      exact ⟨hin.heap, UserVads.toTree_edit hrm he, hin.written⟩

theorem Inv.unmapPartial (h : s.Inv) (hok : OverrideOk startVa n) (hst : startVa % pageSize = 0)
    (hp : miUnmapVirtualMemoryPartial e s startVa n = some (status, s')) : s'.Inv := by
  simp only [miUnmapVirtualMemoryPartial] at hp
  split at hp
  · simp at hp
  · next st s1 ho =>
      simp only [some.injEq, Prod.mk.injEq] at hp
      rw [← hp.2]
      exact (h.override hok hst ho).1
  · next st s1 node ho =>
      obtain ⟨hin, hnd⟩ := h.override hok hst ho
      simp only [some.injEq, Prod.mk.injEq] at hp
      rw [← hp.2]
      exact ⟨mmFreeAddressSpace_inUser hin.heap (hnd node rfl), hin.vads, hin.written⟩

variable {vads : List Vad}

theorem mmLookUpVadByAddress_spec {va : Nat} {c : Cursor Vad}
    (h : mmLookUpVadByAddress vads va = some c) : c.toTree = vads ∧ va < c.entry.node.endVa := by
  obtain ⟨hc, hlt⟩ := filter_eq_some_iff.1 h
  exact ⟨(lookUpApproximate_eq_some hc).1, of_decide_eq_true hlt⟩

/-- A range that passes `MmIsAddressRangeValid` and lies in one VAD ends inside it. -/
theorem vadOfRange_spec {c : Cursor Vad} (hv : UserVads vads)
    (hn : n * pageSize < wordSize) (hvl : mmIsAddressRangeValid startVa (mulW n pageSize) = true)
    (hc : vadOfRange vads startVa n = some c) :
    c.toTree = vads ∧ startVa + n * pageSize ≤ mmLastUserPage := by
  simp only [mmIsAddressRangeValid, mulW_of_lt hn, Bool.and_eq_true, bne_iff_ne,
    decide_eq_true_eq] at hvl
  obtain ⟨⟨hsize, hle⟩, he⟩ := hvl
  have ha : addW startVa (n * pageSize) = startVa + n * pageSize := by
    -- a sum that wraps is smaller than its first term
    rw [addW] at hle ⊢
    rcases Nat.lt_or_ge (startVa + n * pageSize) wordSize with h | h
    · exact Nat.mod_eq_of_lt h
    · rw [addW, Nat.mod_eq_sub_mod h] at he
      have := Nat.mod_le (startVa + n * pageSize - wordSize) wordSize
      rw [Nat.mod_eq_sub_mod h] at hle
      omega
  simp only [vadOfRange, mulW_of_lt hn] at hc
  split at hc
  · next c' d hlk hlk' =>
      split at hc
      · obtain ⟨hct, -⟩ := mmLookUpVadByAddress_spec hlk
        obtain ⟨hdt, hls⟩ := mmLookUpVadByAddress_spec hlk'
        have hd : UserNode d.entry.node := hv _ (hdt ▸ by simp [Cursor.toTree])
        have hlt : startVa + n * pageSize < wordSize :=
          (ha ▸ he).trans_lt (by decide)
        rw [ha, subW_of_le (by omega) hlt, hd.endVa_eq] at hls
        have := hd.inRange.2
        exact ⟨some.inj hc ▸ hct, by omega⟩
      · simp at hc
  · simp at hc

theorem Inv.decommit (h : s.Inv) (hn : n * pageSize < wordSize) :
    (mmDecommitVirtualMemory e s startVa n).2.Inv := by
  simp only [mmDecommitVirtualMemory]
  split
  · exact h
  next hvl =>
  rw [Bool.or_eq_true, not_or] at hvl
  split
  · exact h
  · next c hc =>
      obtain ⟨htree, hlm⟩ := vadOfRange_spec h.vads hn (by simpa using hvl.1) hc
      have hvd : UserVads c.toTree := htree ▸ h.vads
      have he : UserNode c.entry.node := hvd _ (by simp [Cursor.toTree])
      refine ⟨h.heap, UserVads.toTree_edit ?_ ?_, miDecommitVad_inUserHalf hlm h.written⟩
      · exact fun v hv => hvd v (c.toTree_perm.mem_iff.2 (mem_cons_of_mem _ hv))
      · simp only [miDecommitVad]
        split <;> exact he

theorem Inv.release {va : Nat} (h : s.Inv)
    (hr : mmReleaseVirtualMemory e s va = some (status, s')) : s'.Inv := by
  simp only [mmReleaseVirtualMemory] at hr
  split at hr
  · rw [← (Prod.mk.inj (some.inj hr)).2]
    exact h
  · next c hc =>
      have hvd : UserVads c.toTree := (lookUpApproximate_eq_some hc).1 ▸ h.vads
      split at hr
      · rw [← (Prod.mk.inj (some.inj hr)).2]
        exact h
      · obtain ⟨⟨heap, log⟩, hrl, heq⟩ := map_eq_some_iff.1 hr
        obtain ⟨hh, hlg⟩ := miReleaseVad_inUser h.heap h.written (hvd _ (by simp [Cursor.toTree])) hrl
        rw [← (Prod.mk.inj heq).2]
        exact ⟨hh, fun v hv => hvd v (c.toTree_perm.mem_iff.2 (mem_cons_of_mem _ hv)), hlg⟩

theorem regionPages_lt (base rs : Nat) : regionPages base rs * pageSize < wordSize :=
  (Nat.div_mul_le_self _ _).trans_lt (addW_lt _ _)

theorem Inv.free (h : s.Inv) (hok : freeFlagsOk flags = true → hasFlag flags memPartial = true →
      OverrideOk (pageBase base) (regionPages base rs))
    (hf : osFreeVirtualMemory e s pro base rs flags = some (status, s')) : s'.Inv := by
  have hsm : ∀ {st : Status}, some (st, s) = some (status, s') → s'.Inv := by
    intro st heq
    rw [← (Prod.mk.inj (some.inj heq)).2]
    exact h
  simp only [osFreeVirtualMemory] at hf
  split at hf
  · exact hsm hf
  next hfl =>
  split at hf
  · exact hsm hf
  split at hf
  · exact hsm hf
  split at hf
  · exact hsm hf
  split at hf
  · next hp =>
      exact h.unmapPartial (hok (by simpa using hfl) hp) (pageBase_mod _) hf
  have hc : (mmDecommitVirtualMemory e s (pageBase base) (regionPages base rs)).2.Inv :=
    h.decommit (regionPages_lt base rs)
  split at hf
  · exact hc.release hf
  · rw [← (Prod.mk.inj (some.inj hf)).2]
    exact hc

theorem Inv.serve {c : ServiceCall} (h : s.Inv) (hok : s.ServiceOk c)
    (hs : s.serve c = some (status, s')) : s'.Inv := by
  obtain ⟨ser, aro⟩ := c
  cases ser with
  | allocate pro base rs flags protection => exact h.allocate hok hs
  | mapView pro obj base vs flags so protection =>
    have hsm : ∀ {st : Status}, some (st, s) = some (status, s') → s'.Inv := by
      intro st heq
      rw [← (Prod.mk.inj (some.inj heq)).2]
      exact h
    simp only [AddressSpace.serve, osMapViewOfObject] at hs
    split at hs
    · exact hsm hs
    next hfl =>
    split at hs
    · exact hsm hs
    split at hs
    · exact hsm hs
    split at hs
    · exact hsm hs
    · obtain ⟨⟨st, s1⟩, hm, heq⟩ := map_eq_some_iff.1 hs
      rw [← (Prod.mk.inj heq).2]
      exact h.mapView (hok (by simpa using hfl)) hm
  | free pro base rs flags => exact h.free hok hs

/-- Every VAD and every free node lies in the user range, and no page table entry of the kernel half
    was written. -/
structure Contained (s : AddressSpace) : Prop where
  vads : ∀ v ∈ s.vads, InUserRange v.node
  heap : ∀ n ∈ s.heap, InUserRange n
  written : ∀ va ∈ s.written, va ≤ mmUserSpaceEnd

theorem Inv.contained (h : s.Inv) : s.Contained where
  vads v hv := (h.vads v hv).inRange
  heap n hn := (h.heap n hn).inRange
  written := h.written

theorem initial_inv (pool : Bool) : (initial pool).Inv where
  heap := by
    intro n hn
    cases pool with
    | false => simp [initial, processHeap, mmInitializeHeap] at hn
    | true =>
      rw [mem_singleton.1 hn]
      exact ⟨by decide, by decide, by decide⟩
  vads v hv := by simp [initial] at hv
  written va hva := by simp [initial] at hva

end AddressSpace

/-- **User mappings stay in the user range.** Whatever the services are called with, as long as every
    reservation at a fixed address and every partial release that passes the checks meets its
    condition, all VADs and free nodes of the process lie between the first and the last user page,
    and decommit and clean-up never write a page table entry of the kernel half. -/
theorem userRange_contained {pool : Bool} {s : AddressSpace}
    (h : Reaches AddressSpace.step AddressSpace.ServiceOk (AddressSpace.initial pool) s) :
    s.Contained := by
  refine (h.invariant (I := AddressSpace.Inv) (AddressSpace.initial_inv pool) ?_).contained
  intro t c u ht hok hst
  obtain ⟨⟨status, u'⟩, hsr, rfl⟩ := map_eq_some_iff.1 hst
  exact ht.serve hok hsr

/-- `ReserveOk`, executable. -/
def AddressSpace.reserveTest (s : AddressSpace) (n flags startVa : Nat) : Bool :=
  !hasFlag flags memFixed ||
    if hasFlag flags memOverride then decide (OverrideOk startVa n)
    else (lookUpApproximate AddressNode.startVa s.heap (pageBase startVa)).all fun c =>
      decide (¬ HeapSystem.WrapsInto c.entry (pageBase startVa) (rangePages startVa n))

/-- `ServiceOk`, executable; calls the checks refuse are tested too. -/
def AddressSpace.serviceTest (s : AddressSpace) (c : ServiceCall) : Bool :=
  match c.service with
  | .allocate _ base regionSize flags _ =>
    s.reserveTest (regionPages (allocateBase base flags) regionSize) flags
      (pageBase (allocateBase base flags))
  | .mapView _ _ base viewSize flags sectionOffset _ =>
    s.reserveTest (viewSizePages viewSize sectionOffset) (viewFlags flags) (pageBase base)
  | .free _ base regionSize flags =>
    !hasFlag flags memPartial || decide (OverrideOk (pageBase base) (regionPages base regionSize))

theorem AddressSpace.reserveOk_of_test {s : AddressSpace} {n flags startVa : Nat}
    (h : s.reserveTest n flags startVa = true) : s.ReserveOk n flags startVa := by
  intro hx
  simp only [reserveTest, hx, Bool.not_true, Bool.false_or] at h
  split at h
  · next hov =>
      rw [if_pos hov]
      exact of_decide_eq_true h
  · next hov =>
      rw [if_neg hov]
      intro c hc
      simpa [hc] using h

theorem AddressSpace.serviceOk_of_test (s : AddressSpace) (c : ServiceCall)
    (h : s.serviceTest c = true) : s.ServiceOk c := by
  obtain ⟨ser, aro⟩ := c
  cases ser with
  | allocate pro base rs flags protection =>
    exact fun _ _ => AddressSpace.reserveOk_of_test h
  | mapView pro obj base vs flags so protection =>
    exact fun _ => AddressSpace.reserveOk_of_test h
  | free pro base rs flags =>
    intro _ hp
    simp only [serviceTest, hp, Bool.not_true, Bool.false_or] at h
    exact of_decide_eq_true h

/-- Everything succeeds, and every page table is there. -/
def calmSurroundings : Surroundings where
  pool1 := true
  pool2 := true
  pool3 := true
  overlay := some 0
  copyIn := true
  copyOut := true
  pteConflict := false
  tables := ⟨fun _ _ => true, fun _ _ => false⟩

/-- Four pages at a fixed address, a view anywhere, two pages in the middle of the first range
    overridden, and one page of what is left released. -/
def sampleServices : List ServiceCall :=
  [⟨.allocate (some .success) 0x10000 0x4000 (memReserve ||| memCommit ||| memFixed) 3,
      calmSurroundings⟩,
    ⟨.mapView .success (.ok 7) 0 0x2000 memTopDown 0 1, calmSurroundings⟩,
    ⟨.allocate (some .success) 0x11000 0x2000
      (memReserve ||| memCommit ||| memFixed ||| memOverride) 1, calmSurroundings⟩,
    ⟨.free (some .success) 0x10000 0x1000 (memRelease ||| memPartial), calmSurroundings⟩]

/-- What they leave behind. -/
def sampleAddressSpace : AddressSpace where
  heap := [⟨0x1000, 16⟩, ⟨0x14000, 34359738345⟩]
  vads := [⟨⟨0x11000, 2⟩, true, true, 1, none, 0⟩, ⟨⟨0x13000, 1⟩, true, true, 3, none, 0⟩,
    ⟨⟨0x7FFFFFFFD000, 2⟩, true, true, 1, some 7, 0⟩]
  written := [0x10000, 0x10000, 0x12000, 0x11000]

theorem userRange_contained_sample : sampleAddressSpace.Contained := by
  have hrn : runChecked AddressSpace.step AddressSpace.serviceTest sampleServices
      (AddressSpace.initial true) = some sampleAddressSpace := by
    decide +kernel
  exact userRange_contained (Reaches.of_runChecked AddressSpace.serviceOk_of_test hrn)

/-- Two pages at the start of the kernel half, reserved by override and then released in part. -/
def kernelServices : List ServiceCall :=
  [⟨.allocate (some .success) 0xFFFF800000000000 0x2000 (memReserve ||| memFixed ||| memOverride) 3,
      calmSurroundings⟩,
    ⟨.free (some .success) 0xFFFF800000000000 0x2000 (memRelease ||| memPartial), calmSurroundings⟩]

/-- A page at the top of the address space, at a fixed address. -/
def topPageService : ServiceCall :=
  ⟨.allocate (some .success) 0xFFFFFFFFFFFFF000 0x1000 (memReserve ||| memFixed) 3, calmSurroundings⟩

/-- The override makes a VAD in the kernel half, and its partial release writes kernel page table
    entries and leaves a free node there; the fixed page makes a VAD that ends past `2 ^ 64`. -/
theorem userRange_not_contained :
    (∃ s, (AddressSpace.initial true).step (kernelServices.get ⟨0, by decide⟩) = some s ∧
      ¬ ∀ v ∈ s.vads, InUserRange v.node) ∧
    (∃ s, runChecked AddressSpace.step (fun _ _ => true) kernelServices (AddressSpace.initial true) =
      some s ∧ ¬ (∀ n ∈ s.heap, InUserRange n) ∧ ¬ ∀ va ∈ s.written, va ≤ mmUserSpaceEnd) ∧
    (∃ s, (AddressSpace.initial true).step topPageService = some s ∧
      ¬ ∀ v ∈ s.vads, InUserRange v.node) := by
  refine ⟨⟨⟨[⟨0x1000, 0x7FFFFFFFE⟩], [⟨⟨0xFFFF800000000000, 1⟩, false, true, 3, none, 0⟩], []⟩,
      by decide +kernel, fun h => ?_⟩,
    ⟨⟨[⟨0x1000, 0x7FFFFFFFE⟩, ⟨0xFFFF800000000000, 1⟩], [],
        [0xFFFF800000000000, 0xFFFF800000000000]⟩, by decide +kernel, fun h => ?_, fun h => ?_⟩,
    ⟨⟨[⟨0, 0x7FFFFFFFF⟩, ⟨0x1000, 0xFFFFFFFFFFFFE⟩],
        [⟨⟨0xFFFFFFFFFFFFF000, 1⟩, false, true, 3, none, 0⟩], []⟩, by decide +kernel, fun h => ?_⟩⟩
  · exact absurd (h _ mem_cons_self).2 (by decide)
  · exact absurd (h ⟨0xFFFF800000000000, 1⟩ (by simp)).2 (by decide)
  · exact absurd (h _ mem_cons_self) (by decide)
  · exact absurd (h _ mem_cons_self).2 (by decide)

end Boron.Mm
