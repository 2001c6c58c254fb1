import Boron.Mm.Heap

/-! # The heap and the nodes handed out tile the initial region

One call takes a node out of the tree and leaves the pieces around it (`Taken`), or puts a node back
and joins it with its neighbours (`Returned`). Both keep the free nodes ordered and apart, and both
only cut and join pieces of the tiling formed by the free nodes and those handed out. -/

namespace Boron.Mm

open List Option

/-! ## 64-bit arithmetic on pages -/

theorem addW_mulW_pageSize (va n : Nat) :
    addW va (mulW n pageSize) = (va + n * pageSize) % wordSize := by
  rw [addW, mulW, Nat.add_mod_mod]

theorem AddressNode.endVa_eq (n : AddressNode) : n.endVa = n.limit % wordSize :=
  addW_mulW_pageSize _ _

/-- The page counts of two neighbouring nodes do not add up past 64 bits. -/
theorem sizes_lt_wordSize {va m n : Nat} (h : va + m * pageSize + n * pageSize ≤ wordSize)
    (_hn : 0 < n) : m + n < wordSize := by
  unfold wordSize pageSize at *
  omega

variable {b : Nat}

/-- A difference of wrapped ends is the difference of the ends. -/
theorem subW_mod {a : Nat} (hb : 0 < b) (hab : b ≤ a) (ha : a ≤ wordSize) :
    subW (a % wordSize) b = a - b := by
  unfold subW
  unfold wordSize at *
  omega

theorem subW_mulW_pageSize {va n e : Nat} (hva : va < wordSize) (he : va + n * pageSize = e) :
    subW (e % wordSize) (mulW n pageSize) = va := by
  unfold subW mulW
  unfold wordSize pageSize at *
  omega

/-- Ends in `(0, 2 ^ 64]` are equal when they are equal in 64 bits. -/
theorem eq_of_mod_wordSize {a : Nat} (ha : 0 < a) (ha' : a ≤ wordSize) (hb : 0 < b)
    (hb' : b ≤ wordSize) (h : a % wordSize = b % wordSize) : a = b := by
  unfold wordSize at *
  omega

/-! ## The system of calls -/

/-- The free nodes and the nodes handed out. -/
structure HeapSystem where
  free : HeapTree
  handed : List AddressNode
  deriving DecidableEq, Repr

/-- The calls on a heap; the `Bool`s are the outcomes of the pool allocations. -/
inductive HeapCall
  | allocateAddressSpace (sizePages : Nat) (topDown pool : Bool)
  | allocateAddressRange (va sizePages : Nat) (pool1 pool2 : Bool)
  | freeAddressSpace (node : AddressNode)
  deriving DecidableEq, Repr

namespace HeapSystem

/-- The system after an allocation. -/
def afterAllocation (s : HeapSystem) (r : HeapResult) : HeapSystem :=
  ⟨r.tree, r.outNode.toList ++ s.handed⟩

/-- One call. Only a node that was handed out may be freed. -/
def call (s : HeapSystem) : HeapCall → Option (Status × HeapSystem)
  | .allocateAddressSpace n topDown pool =>
    let r := mmAllocateAddressSpace s.free n topDown pool
    some (r.status, s.afterAllocation r)
  | .allocateAddressRange va n pool1 pool2 =>
    let r := mmAllocateAddressRange s.free va n pool1 pool2
    some (r.status, s.afterAllocation r)
  | .freeAddressSpace node =>
    if node ∈ s.handed then
      let r := mmFreeAddressSpace s.free node
      some (r.1, ⟨r.2, if r.1 = .success then s.handed.erase node else s.handed⟩)
    else none

/-- The state after a call. -/
def step (s : HeapSystem) (a : HeapCall) : Option HeapSystem := (s.call a).map Prod.snd

/-- The request for `n` pages at `va` ends past `node` and past the end of the address space, so far
    that in 64 bits it seems to end inside `node`, which has enough pages. -/
def WrapsInto (node : AddressNode) (va n : Nat) : Prop :=
  n ≤ node.size ∧ node.limit < va + n * pageSize ∧ addW va (mulW n pageSize) ≤ node.endVa

instance (node : AddressNode) (va n : Nat) : Decidable (WrapsInto node va n) :=
  inferInstanceAs (Decidable (_ ∧ _ ∧ _))

/-- The calls that keep the partition: no request of zero pages, and no fixed range that wraps into
    the node found for it. -/
def CallOk (s : HeapSystem) : HeapCall → Prop
  | .allocateAddressSpace n _ _ => n ≠ 0
  | .allocateAddressRange va n _ _ =>
    rangePages va n ≠ 0 ∧
      ∀ c, lookUpApproximate AddressNode.startVa s.free (pageBase va) = some c →
        ¬ WrapsInto c.entry (pageBase va) (rangePages va n)
  | .freeAddressSpace _ => True

end HeapSystem

/-! ## The invariant -/

/-- Free nodes are in order and no two of them touch. -/
def Apart (t : HeapTree) : Prop := t.Pairwise fun a b => a.limit < b.startVa

/-- A list of nodes tiles `[base, limit)`. -/
abbrev NodesTile (base limit : Nat) (ns : List AddressNode) : Prop :=
  Tiles AddressNode.startVa AddressNode.limit base limit ns

/-- What every call keeps. -/
structure HeapSystem.Inv (base limit : Nat) (s : HeapSystem) : Prop where
  apart : Apart s.free
  aligned : ∀ n ∈ s.free ++ s.handed, n.startVa % pageSize = 0
  tiles : NodesTile base limit (s.free ++ s.handed)

theorem AddressNode.size_pos_iff (n : AddressNode) : n.startVa < n.limit ↔ 0 < n.size := by
  simp only [AddressNode.limit, pageSize]
  omega

theorem AddressNode.limit_extend (n : AddressNode) (k : Nat) :
    AddressNode.limit ⟨n.startVa, n.size + k⟩ = n.limit + k * pageSize := by
  simp only [AddressNode.limit, Nat.add_mul, Nat.add_assoc]

variable {t : HeapTree}

theorem Apart.ordered (h : Apart t) : Ordered AddressNode.startVa t :=
  h.imp fun {a b} ha => by
    have : a.startVa ≤ a.limit := Nat.le_add_right _ _
    show a.startVa < b.startVa
    omega

/-! ## Taking a node out -/

/-- `out` is cut out of `n` and `rest` is what is left of it. -/
inductive CutFrom (n : AddressNode) : List AddressNode → AddressNode → Prop
  | whole : CutFrom n [] n
  | right {out r : AddressNode} : out.startVa = n.startVa → out.limit = r.startVa →
      r.limit = n.limit → 0 < out.size → 0 < r.size → CutFrom n [r] out
  | left {out l : AddressNode} : l.startVa = n.startVa → l.limit = out.startVa →
      out.limit = n.limit → 0 < out.size → 0 < l.size → CutFrom n [l] out
  | both {out l r : AddressNode} : l.startVa = n.startVa → l.limit = out.startVa →
      out.limit = r.startVa → r.limit = n.limit → 0 < out.size → 0 < l.size → 0 < r.size →
      CutFrom n [l, r] out

/-- `t'` is `t` with `out` cut out of one of its nodes. -/
def Taken (t t' : HeapTree) (out : AddressNode) : Prop :=
  ∃ l n r rest, t = l ++ n :: r ∧ t' = l ++ rest ++ r ∧ CutFrom n rest out

namespace CutFrom

variable {n out : AddressNode} {rest ns : List AddressNode} {base limit : Nat}

theorem tiles (h : CutFrom n rest out) (ht : NodesTile base limit (n :: ns)) :
    NodesTile base limit (out :: rest ++ ns) := by
  have hpos := fun m : AddressNode => (AddressNode.size_pos_iff m).2
  cases h with
  | whole => exact ht
  | right h1 h2 h3 ho hr => exact ht.cut h1 h2 h3 (hpos _ ho) (hpos _ hr)
  | left h1 h2 h3 ho hl =>
    exact (ht.cut h1 h2 h3 (hpos _ hl) (hpos _ ho)).perm (.swap _ _ _)
  | @both _ l r h1 h2 h3 h4 ho hl hr =>
    -- first the left piece, then the rest is cut again
    let m : AddressNode := ⟨out.startVa, out.size + r.size⟩
    have hm : m.limit = n.limit := by
      rw [AddressNode.limit_extend, h3]
      exact h4
    have hc := ht.cut (l := l) (r := m) h1 h2 hm (hpos _ hl) (hpos m (Nat.add_pos_left ho _))
    have hc' := (hc.perm (.swap _ _ _)).cut (l := out) (r := r) rfl h3 (h4.trans hm.symm)
      (hpos _ ho) (hpos _ hr)
    exact hc'.perm ((List.Perm.swap _ _ _).cons _)

theorem inside (h : CutFrom n rest out) {m : AddressNode} (hm : m ∈ rest) :
    n.startVa ≤ m.startVa ∧ m.limit ≤ n.limit := by
  cases h with
  | whole => simp at hm
  | right h1 h2 h3 ho hr =>
    obtain rfl := mem_singleton.1 hm
    exact ⟨by simp only [AddressNode.limit] at *; omega, h3.le⟩
  | left h1 h2 h3 ho hl =>
    obtain rfl := mem_singleton.1 hm
    exact ⟨h1.ge, by simp only [AddressNode.limit] at *; omega⟩
  | both h1 h2 h3 h4 ho hl hr =>
    simp only [mem_cons, not_mem_nil, or_false] at hm
    rcases hm with rfl | rfl
    · exact ⟨h1.ge, by simp only [AddressNode.limit] at *; omega⟩
    · exact ⟨by simp only [AddressNode.limit] at *; omega, h4.le⟩

theorem apart (h : CutFrom n rest out) : Apart rest := by
  cases h with
  | whole => exact .nil
  | right => exact pairwise_singleton _ _
  | left => exact pairwise_singleton _ _
  | both h1 h2 h3 h4 ho hl hr =>
    refine pairwise_pair.2 ?_
    have := (AddressNode.size_pos_iff out).2 ho
    omega

theorem aligned (h : CutFrom n rest out) (hn : n.startVa % pageSize = 0) :
    ∀ m ∈ out :: rest, m.startVa % pageSize = 0 := by
  cases h with
  | whole => simpa using hn
  | right h1 h2 h3 ho hr =>
    simp only [AddressNode.limit, forall_mem_cons, pageSize] at *
    exact ⟨by omega, by omega, by simp⟩
  | left h1 h2 h3 ho hl =>
    simp only [AddressNode.limit, forall_mem_cons, pageSize] at *
    exact ⟨by omega, by omega, by simp⟩
  | both h1 h2 h3 h4 ho hl hr =>
    simp only [AddressNode.limit, forall_mem_cons, pageSize] at *
    exact ⟨by omega, by omega, by omega, by simp⟩

end CutFrom

theorem HeapSystem.Inv.taken {base limit : Nat} {s : HeapSystem} {t' : HeapTree}
    {out : AddressNode} (h : s.Inv base limit) (ht : Taken s.free t' out) :
    HeapSystem.Inv base limit ⟨t', out :: s.handed⟩ := by
  obtain ⟨l, n, r, rest, hfr, rfl, hc⟩ := ht
  have hap := h.apart
  rw [hfr] at hap
  obtain ⟨hl, hnr, hln⟩ := pairwise_append.1 hap
  obtain ⟨hn, hr⟩ := pairwise_cons.1 hnr
  have hp : (s.free ++ s.handed).Perm (n :: (l ++ r ++ s.handed)) := by
    rw [hfr, append_assoc, cons_append, append_assoc]
    exact perm_middle
  have hp' : (out :: rest ++ (l ++ r ++ s.handed)).Perm (l ++ rest ++ r ++ out :: s.handed) := by
    have h1 : (rest ++ (l ++ r ++ s.handed)).Perm (l ++ rest ++ r ++ s.handed) := by
      simpa using (perm_append_comm : (rest ++ l).Perm (l ++ rest)).append_right (r ++ s.handed)
    exact (h1.cons out).trans (perm_middle.symm)
  constructor
  · show Apart (l ++ rest ++ r)
    rw [append_assoc]
    refine pairwise_append.2 ⟨hl, pairwise_append.2 ⟨hc.apart, hr, ?_⟩, ?_⟩
    · intro a ha b hb
      exact (hc.inside ha).2.trans_lt (hn b hb)
    · intro a ha b hb
      rcases mem_append.1 hb with hb | hb
      · exact (hln a ha n (by simp)).trans_le (hc.inside hb).1
      · exact hln a ha b (by simp [hb])
  · intro m hm
    have hal : ∀ k ∈ out :: rest, k.startVa % pageSize = 0 :=
      hc.aligned (h.aligned n (by simp [hfr]))
    rcases mem_append.1 (hp'.mem_iff.2 hm) with hm | hm
    · exact hal m hm
    · exact h.aligned m (hp.mem_iff.2 (mem_cons_of_mem _ hm))
  · exact (hc.tiles (h.tiles.perm hp)).perm hp'

/-! ## Allocation -/

/-- What an allocation from the tree `t` may return: a node cut out of it, or a failure that leaves
    the tree as it was. -/
def HeapResult.Ok (t : HeapTree) (res : HeapResult) : Prop :=
  (res.status = .success ∧ ∃ out, res.outNode = some out ∧ Taken t res.tree out) ∨
  (res.status ≠ .success ∧ res.tree = t ∧ res.outNode = none)

theorem HeapResult.Ok.failed {status : Status} (h : status ≠ .success) :
    HeapResult.Ok t ⟨status, t, none⟩ :=
  .inr ⟨h, rfl, rfl⟩

theorem HeapResult.Ok.taken {l r : HeapTree} {n out : AddressNode} {rest : List AddressNode}
    (h : CutFrom n rest out) :
    HeapResult.Ok (Cursor.toTree ⟨l, n, r⟩) ⟨.success, l.reverse ++ rest ++ r, some out⟩ :=
  .inl ⟨rfl, out, rfl, l.reverse, n, r, rest, rfl, rfl, h⟩

section

variable {l r : HeapTree} {node : AddressNode} {va n : Nat}

theorem Apart.neighbours (h : Apart (Cursor.toTree ⟨l, node, r⟩)) :
    (∀ a ∈ l, a.startVa < node.startVa) ∧ ∀ a ∈ r, node.limit < a.startVa := by
  obtain ⟨-, hnr, hl⟩ := pairwise_append.1 h
  refine ⟨fun a ha => ?_, (pairwise_cons.1 hnr).1⟩
  have h1 : a.limit < node.startVa := hl a (mem_reverse.2 ha) node mem_cons_self
  have h2 : a.startVa ≤ a.limit := Nat.le_add_right _ _
  omega

variable {e x : AddressNode}

theorem insertIgnoring_left (hl : ∀ a ∈ l, a.startVa < x.startVa)
    (hx : x.startVa < e.startVa) : insertIgnoring ⟨l, e, r⟩ x = ⟨x :: l, e, r⟩ := by
  rw [insertIgnoring, Cursor.insertItem_left hl hx, getD_some]

theorem insertIgnoring_right (hx : e.startVa < x.startVa)
    (hr : ∀ a ∈ r, x.startVa < a.startVa) : insertIgnoring ⟨l, e, r⟩ x = ⟨l, e, x :: r⟩ := by
  rw [insertIgnoring, Cursor.insertItem_right hx hr, getD_some]

/-- An address strictly before the end of a node does not wrap. -/
theorem addW_mulW_of_lt_limit (hlm : node.limit ≤ wordSize) (h : va + n * pageSize < node.limit) :
    addW va (mulW n pageSize) = va + n * pageSize := by
  rw [addW_mulW_pageSize, Nat.mod_eq_of_lt (h.trans_le hlm)]

variable {td pool : Bool}

theorem allocateSpaceAt_ok {res : HeapResult} {c : Cursor AddressNode}
    (hp : Apart c.toTree) (hlm : c.entry.limit ≤ wordSize) (hn : n ≠ 0)
    (h : allocateSpaceAt n td pool c = some res) : res.Ok c.toTree := by
  obtain ⟨l, node, r⟩ := c
  obtain ⟨hl, hr⟩ := hp.neighbours
  simp only [allocateSpaceAt, mmpCreateRegionHeap] at h
  split at h
  · cases h
    simpa [Cursor.remove] using HeapResult.Ok.taken (l := l) (r := r) (CutFrom.whole (n := node))
  split at h
  · simp at h
  next hne hlt =>
  have hsize : n < node.size := by omega
  cases pool with
  | false =>
    cases h
    exact .failed (by decide)
  | true =>
    cases td with
    | true =>
      -- the node moves up to its last pages, the new one keeps the start
      have hva : addW node.startVa (mulW (node.size - n) pageSize) =
          node.startVa + (node.size - n) * pageSize := by
        apply addW_mulW_of_lt_limit hlm
        simp only [AddressNode.limit, pageSize]
        omega
      have hin := insertIgnoring_left (l := l) (r := r)
        (e := ⟨node.startVa + (node.size - n) * pageSize, node.size⟩)
        (x := ⟨node.startVa, node.size - n⟩) hl (by simp only [pageSize]; omega)
      simp only [if_true, hva, hin, some.injEq] at h
      obtain rfl := h
      have hc : CutFrom node [⟨node.startVa, node.size - n⟩]
          ⟨node.startVa + (node.size - n) * pageSize, n⟩ := by
        refine .left rfl rfl ?_ (Nat.pos_of_ne_zero hn) (Nat.sub_pos_of_lt hsize)
        simp only [AddressNode.limit, pageSize]
        omega
      simpa [Cursor.remove] using HeapResult.Ok.taken (l := l) (r := r) hc
    | false =>
      have he : node.startVa + n * pageSize < node.limit := by
        simp only [AddressNode.limit, pageSize]
        omega
      have hva := addW_mulW_of_lt_limit hlm he
      have hin := insertIgnoring_right (l := l) (r := r) (e := ⟨node.startVa, node.size⟩)
        (x := ⟨node.startVa + n * pageSize, node.size - n⟩) (by simp only [pageSize]; omega)
        (fun a ha => he.trans (hr a ha))
      simp only [if_true, Bool.false_eq_true, if_false, hva, hin, some.injEq] at h
      obtain rfl := h
      have hc : CutFrom node [⟨node.startVa + n * pageSize, node.size - n⟩] ⟨node.startVa, n⟩ := by
        refine .right rfl rfl ?_ (Nat.pos_of_ne_zero hn) (Nat.sub_pos_of_lt hsize)
        simp only [AddressNode.limit, pageSize]
        omega
      simpa [Cursor.remove] using HeapResult.Ok.taken (l := l) (r := r) hc

theorem mmAllocateAddressSpace_ok {t : HeapTree} (ha : Apart t)
    (hlm : ∀ m ∈ t, m.limit ≤ wordSize) (hn : n ≠ 0) :
    (mmAllocateAddressSpace t n td pool).Ok t := by
  have hb : ∀ {res : HeapResult} {c : Cursor AddressNode}, c.toTree = t →
      allocateSpaceAt n td pool c = some res → res.Ok t := by
    intro res c hc h
    subst hc
    exact allocateSpaceAt_ok ha (hlm _ (by simp [Cursor.toTree])) hn h
  cases td with
  | true =>
    simp only [mmAllocateAddressSpace, if_true]
    cases h : forDown (allocateSpaceAt n true pool) t.reverse [] with
    | none => exact .failed (by decide)
    | some res =>
      obtain ⟨c, hc, hrs⟩ := forDown_eq_some h
      exact hb (by simpa using hc) hrs
  | false =>
    simp only [mmAllocateAddressSpace, Bool.false_eq_true, if_false]
    cases h : forUp (allocateSpaceAt n false pool) [] t with
    | none => exact .failed (by decide)
    | some res =>
      obtain ⟨c, hc, hrs⟩ := forUp_eq_some h
      exact hb (by simpa using hc) hrs

/-- The node holds the range, as far as the code checks. -/
def HoldsRange (node : AddressNode) (va n : Nat) : Prop :=
  n ≤ node.size ∧ addW va (mulW n pageSize) ≤ node.endVa

/-- How `MmAllocateAddressRange` ends: without a change, with the whole node, or with a part of it
from its start, up to its end or from between. -/
theorem allocateRangeAt_cases {P : HeapResult → Prop} (c : Cursor AddressNode) (va n : Nat)
    (pool1 pool2 : Bool) (hfl : ∀ status, status ≠ .success → P ⟨status, c.toTree, none⟩)
    (hw : c.entry.startVa = va → c.entry.size = n → P ⟨.success, c.remove, some c.entry⟩)
    (hrg : HoldsRange c.entry va n → c.entry.startVa = va → c.entry.size ≠ n →
      P ⟨.success, (insertIgnoring c ⟨addW c.entry.startVa (mulW n pageSize), c.entry.size - n⟩).remove,
        some { c.entry with size := n }⟩)
    (hlf : HoldsRange c.entry va n → c.entry.startVa ≠ va → c.entry.endVa = addW va (mulW n pageSize) →
      P ⟨.success, (insertIgnoring { c with entry := ⟨subW c.entry.endVa (mulW n pageSize), n⟩ }
        ⟨c.entry.startVa, c.entry.size - n⟩).remove,
        some ⟨subW c.entry.endVa (mulW n pageSize), n⟩⟩)
    (hb : HoldsRange c.entry va n → c.entry.startVa ≠ va → c.entry.endVa ≠ addW va (mulW n pageSize) →
      P ⟨.success, (insertIgnoring (insertIgnoring { c with entry := ⟨va, n⟩ }
          ⟨c.entry.startVa, subW va c.entry.startVa / pageSize⟩)
        ⟨addW va (mulW n pageSize), subW c.entry.endVa (addW va (mulW n pageSize)) / pageSize⟩).remove,
        some ⟨va, n⟩⟩) :
    P (allocateRangeAt c va n pool1 pool2) := by
  simp only [allocateRangeAt, mmpCreateRegionHeap]
  by_cases he : c.entry.startVa = va ∧ c.entry.size = n
  · rw [if_pos he]
    exact hw he.1 he.2
  rw [if_neg he]
  by_cases hsize : c.entry.size < n
  · rw [if_pos hsize]
    exact hfl _ (by decide)
  rw [if_neg hsize]
  by_cases hft : c.entry.endVa < addW va (mulW n pageSize)
  · rw [if_pos hft]
    exact hfl _ (by decide)
  rw [if_neg hft]
  have hholds : HoldsRange c.entry va n := ⟨not_lt.1 hsize, not_lt.1 hft⟩
  by_cases hst : c.entry.startVa = va
  · rw [if_pos hst]
    cases pool1 with
    | false => exact hfl _ (by decide)
    | true => exact hrg hholds hst fun h => he ⟨hst, h⟩
  rw [if_neg hst]
  by_cases hls : c.entry.endVa = addW va (mulW n pageSize)
  · rw [if_pos hls]
    cases pool1 with
    | false => exact hfl _ (by decide)
    | true => exact hlf hholds hst hls
  rw [if_neg hls]
  by_cases hp : (pool1 && pool2) = true
  · rw [if_pos hp]
    exact hb hholds hst hls
  · rw [if_neg hp]
    exact hfl _ (by decide)

theorem allocateRangeAt_ok {pool1 pool2 : Bool} (hp : Apart (Cursor.toTree ⟨l, node, r⟩))
    (hlm : node.limit ≤ wordSize) (hnl : node.startVa % pageSize = 0) (hvl : va % pageSize = 0)
    (hva : node.startVa ≤ va) (hn : n ≠ 0) (hw : ¬ HeapSystem.WrapsInto node va n) :
    (allocateRangeAt ⟨l, node, r⟩ va n pool1 pool2).Ok (Cursor.toTree ⟨l, node, r⟩) := by
  obtain ⟨hl, hr⟩ := hp.neighbours
  -- the request ends inside the node
  have he : HoldsRange node va n → va + n * pageSize ≤ node.limit := by
    rintro ⟨hsize, hft⟩
    by_contra hlt
    exact hw ⟨by omega, by omega, by omega⟩
  have hpos : 0 < va + n * pageSize := by
    simp only [pageSize]
    omega
  refine allocateRangeAt_cases ⟨l, node, r⟩ va n pool1 pool2 (fun _ => .failed) (fun _ _ => ?_)
    (fun hholds hst hec => ?_) (fun hholds hst hls => ?_) fun hholds hst hls => ?_
  · simpa [Cursor.remove] using HeapResult.Ok.taken (l := l) (r := r) (CutFrom.whole (n := node))
  · have hlt : n < node.size := lt_of_le_of_ne hholds.1 (Ne.symm hec)
    have he' : node.startVa + n * pageSize < node.limit := by
      simp only [AddressNode.limit, pageSize]
      omega
    have hin := insertIgnoring_right (l := l) (r := r) (e := node)
      (x := ⟨node.startVa + n * pageSize, node.size - n⟩) (by simp only [pageSize]; omega)
      (fun a ha => he'.trans (hr a ha))
    have hc : CutFrom node [⟨node.startVa + n * pageSize, node.size - n⟩] ⟨node.startVa, n⟩ := by
      refine .right rfl rfl ?_ (Nat.pos_of_ne_zero hn) (Nat.sub_pos_of_lt hlt)
      simp only [AddressNode.limit, pageSize]
      omega
    simp only [addW_mulW_of_lt_limit hlm he', hin]
    simpa [Cursor.remove] using HeapResult.Ok.taken (l := l) (r := r) hc
  · have he := he hholds
    have hlt : node.startVa < va := lt_of_le_of_ne hva hst
    have hvaW : va < wordSize := by
      simp only [pageSize] at he
      omega
    have hlmt : va + n * pageSize = node.limit := by
      rw [AddressNode.endVa_eq, addW_mulW_pageSize] at hls
      exact (eq_of_mod_wordSize (by omega) hlm hpos (he.trans hlm) hls).symm
    have hct : subW node.endVa (mulW n pageSize) = va := by
      rw [AddressNode.endVa_eq]
      exact subW_mulW_pageSize hvaW hlmt
    have hin := insertIgnoring_left (l := l) (r := r) (e := ⟨va, n⟩)
      (x := ⟨node.startVa, node.size - n⟩) hl hlt
    have hz : n < node.size := by
      simp only [AddressNode.limit, pageSize] at hlmt
      omega
    have hc : CutFrom node [⟨node.startVa, node.size - n⟩] ⟨va, n⟩ := by
      refine .left rfl ?_ hlmt (Nat.pos_of_ne_zero hn) (Nat.sub_pos_of_lt hz)
      simp only [AddressNode.limit, pageSize] at hlmt ⊢
      omega
    simp only [hct, hin]
    simpa [Cursor.remove] using HeapResult.Ok.taken (l := l) (r := r) hc
  · have he := he hholds
    have hlt : node.startVa < va := lt_of_le_of_ne hva hst
    have hvaW : va < wordSize := by
      simp only [pageSize] at he
      omega
    have he' : va + n * pageSize < node.limit := by
      refine lt_of_le_of_ne he fun h => hls ?_
      rw [AddressNode.endVa_eq, addW_mulW_pageSize, h]
    have hnd1 : subW va node.startVa = va - node.startVa := subW_of_le hva hvaW
    have hnd2 : subW node.endVa (va + n * pageSize) = node.limit - (va + n * pageSize) := by
      rw [AddressNode.endVa_eq]
      exact subW_mod hpos he hlm
    have hin1 := insertIgnoring_left (l := l) (r := r) (e := ⟨va, n⟩)
      (x := ⟨node.startVa, (va - node.startVa) / pageSize⟩) hl hlt
    have hin2 := insertIgnoring_right (r := r) (e := ⟨va, n⟩)
      (l := ⟨node.startVa, (va - node.startVa) / pageSize⟩ :: l)
      (x := ⟨va + n * pageSize, (node.limit - (va + n * pageSize)) / pageSize⟩)
      (by simp only [pageSize]; omega) (fun a ha => he'.trans (hr a ha))
    have hc : CutFrom node [⟨node.startVa, (va - node.startVa) / pageSize⟩,
        ⟨va + n * pageSize, (node.limit - (va + n * pageSize)) / pageSize⟩] ⟨va, n⟩ := by
      simp only [AddressNode.limit, pageSize] at *
      refine .both rfl ?_ rfl ?_ (Nat.pos_of_ne_zero hn) ?_ ?_ <;>
        simp only [AddressNode.limit, pageSize] <;> omega
    simp only [addW_mulW_of_lt_limit hlm he', hnd1, hnd2, hin1, hin2]
    simpa [Cursor.remove] using HeapResult.Ok.taken (l := l) (r := r) hc

end

theorem pageBase_mod (va : Nat) : pageBase va % pageSize = 0 := by
  simp only [pageBase, pageSize]
  omega

theorem mmAllocateAddressRange_ok {va n : Nat} {pool1 pool2 : Bool}
    (ha : Apart t) (hlm : ∀ m ∈ t, m.limit ≤ wordSize)
    (hal : ∀ m ∈ t, m.startVa % pageSize = 0) (hn : rangePages va n ≠ 0)
    (hw : ∀ c, lookUpApproximate AddressNode.startVa t (pageBase va) = some c →
      ¬ HeapSystem.WrapsInto c.entry (pageBase va) (rangePages va n)) :
    (mmAllocateAddressRange t va n pool1 pool2).Ok t := by
  simp only [mmAllocateAddressRange]
  split
  · exact .failed (by decide)
  · next c hc =>
      obtain ⟨htree, hle⟩ := lookUpApproximate_eq_some hc
      subst htree
      have hme : c.entry ∈ c.toTree := by simp [Cursor.toTree]
      exact allocateRangeAt_ok ha (hlm _ hme) (hal _ hme) (pageBase_mod va) hle hn (hw c hc)

/-! ## Release -/

variable {e : AddressNode}

/-- Merging with the next node leaves the node in hand apart from those after it, and only joins
    pieces. -/
theorem mmpTryMergeNext_spec {l r : HeapTree} (hr : Apart r)
    (hle : ∀ b ∈ r, e.limit ≤ b.startVa) (hbd : ∀ b ∈ r, b.startVa < b.limit ∧ b.limit ≤ wordSize) :
    ∃ e' r', mmpTryMergeNext ⟨l, e, r⟩ = ⟨l, e', r'⟩ ∧ e'.startVa = e.startVa ∧ r' ⊆ r ∧
      Apart (e' :: r') ∧ ∀ {base limit : Nat} {ns : List AddressNode}, NodesTile base limit (e :: r ++ ns) →
        NodesTile base limit (e' :: r' ++ ns) := by
  cases r with
  | nil => exact ⟨e, [], rfl, rfl, fun _ h => h, pairwise_singleton _ _, fun h => h⟩
  | cons next r =>
    obtain ⟨hnext, hr'⟩ := pairwise_cons.1 hr
    obtain ⟨hpos, hlm⟩ := hbd next mem_cons_self
    have he : e.endVa = e.limit := by
      rw [AddressNode.endVa_eq, Nat.mod_eq_of_lt]
      exact (hle next mem_cons_self).trans_lt (hpos.trans_le hlm)
    by_cases ha : next.startVa = e.endVa
    · have ha' : e.limit = next.startVa := by rw [ha, he]
      have hsize : addW e.size next.size = e.size + next.size := by
        have hlm' := hlm
        rw [AddressNode.limit, ← ha', AddressNode.limit] at hlm'
        exact addW_of_lt (sizes_lt_wordSize hlm' ((AddressNode.size_pos_iff next).1 hpos))
      have hlmt : AddressNode.limit ⟨e.startVa, e.size + next.size⟩ = next.limit := by
        rw [AddressNode.limit_extend, ha', AddressNode.limit]
      refine ⟨⟨e.startVa, e.size + next.size⟩, r, ?_, rfl, subset_cons_self _ _, ?_, ?_⟩
      · simp only [mmpTryMergeNext, if_pos ha, hsize]
      · refine pairwise_cons.2 ⟨fun b hb => ?_, hr'⟩
        rw [hlmt]
        exact hnext b hb
      · intro base limit ns h
        exact Tiles.join h rfl ha' hlmt.symm
    · refine ⟨e, next :: r, by simp only [mmpTryMergeNext, if_neg ha], rfl, fun _ h => h, ?_,
        fun h => h⟩
      have hlt : e.limit < next.startVa :=
        lt_of_le_of_ne (hle next mem_cons_self) fun h => ha (by rw [he, h])
      refine pairwise_cons.2 ⟨fun b hb => ?_, hr⟩
      rcases mem_cons.1 hb with rfl | hb
      · exact hlt
      · exact hlt.trans (hpos.trans (hnext b hb))

variable {x : AddressNode}

theorem insertItem_apart (hor : Ordered AddressNode.startVa t) (hpos : ∀ b ∈ x :: t, b.startVa < b.limit)
    (hds : ∀ b ∈ t, x.limit ≤ b.startVa ∨ b.limit ≤ x.startVa) :
    ∃ l r, t = l ++ r ∧ insertItem AddressNode.startVa t x = some ⟨l.reverse, x, r⟩ ∧
      (∀ a ∈ l, a.limit ≤ x.startVa) ∧ ∀ b ∈ r, x.limit ≤ b.startVa := by
  have hx := hpos x mem_cons_self
  cases hin : insertItem AddressNode.startVa t x with
  | none =>
    -- an equal key would be an overlap
    obtain ⟨b, hb, hy⟩ := insertItem_eq_none hin
    have hb' := hpos b (mem_cons_of_mem _ hb)
    have := hds b hb
    omega
  | some c =>
    obtain ⟨l, r, ht, hc, hl, hr⟩ := insertItem_eq_some hin hor
    refine ⟨l, r, ht, congrArg some hc, fun a ha => ?_, fun b hb => ?_⟩
    · have hy := hl a ha
      rcases hds a (by simp [ht, ha]) with h | h
      · omega
      · exact h
    · have hb' := hpos b (by simp [ht, hb])
      have hy := hr b hb
      rcases hds b (by simp [ht, hb]) with h | h
      · exact h
      · omega

theorem Apart.append {l r : HeapTree} (hl : Apart l) (hr : Apart (e :: r))
    (h : ∀ a ∈ l, a.limit < e.startVa) : Apart (l ++ e :: r) := by
  refine pairwise_append.2 ⟨hl, hr, fun a ha b hb => ?_⟩
  rcases mem_cons.1 hb with rfl | hb
  · exact h a ha
  · have h1 := h a ha
    have h2 := (pairwise_cons.1 hr).1 b hb
    have h3 : e.startVa ≤ e.limit := Nat.le_add_right _ _
    omega

theorem mmFreeAddressSpace_ok {base limit : Nat} {t ns : List AddressNode}
    (hlm : limit ≤ wordSize) (happ : Apart t) (hts : NodesTile base limit (x :: t ++ ns)) :
    ∃ t', mmFreeAddressSpace t x = (.success, t') ∧ Apart t' ∧
      (∀ m ∈ t', ∃ m' ∈ x :: t, m.startVa = m'.startVa) ∧ NodesTile base limit (t' ++ ns) := by
  have hbd : ∀ {ms : List AddressNode} {b : AddressNode}, NodesTile base limit ms → b ∈ ms →
      b.startVa < b.limit ∧ b.limit ≤ wordSize := fun h hb =>
    ⟨h.nonempty _ hb, (h.bounds hb).2.trans hlm⟩
  have hds : ∀ b ∈ t, x.limit ≤ b.startVa ∨ b.limit ≤ x.startVa := fun b hb =>
    (pairwise_cons.1 hts.disjoint).1 b (mem_append_left _ hb)
  obtain ⟨l, r, ht, hin, hx, hxr⟩ := insertItem_apart happ.ordered
    (fun b hb => (hbd hts (mem_append_left _ hb)).1) hds
  subst ht
  obtain ⟨hal, har, -⟩ := pairwise_append.1 happ
  obtain ⟨x', r', hmr, hst, hsb, hap', htl'⟩ := mmpTryMergeNext_spec (l := l.reverse) har hxr
    (fun b hb => hbd hts (by simp [hb]))
  have hT : NodesTile base limit (x' :: r' ++ (l ++ ns)) := by
    apply htl'
    refine hts.perm ?_
    simpa using ((perm_append_comm : (l ++ r).Perm (r ++ l)).append_right ns).cons x
  have hsr : ∀ m ∈ x' :: r', ∃ m' ∈ x :: (l ++ r), m.startVa = m'.startVa := by
    intro m hm
    rcases mem_cons.1 hm with rfl | hm
    · exact ⟨x, by simp, hst⟩
    · exact ⟨m, by simp [hsb hm], rfl⟩
  simp only [mmFreeAddressSpace, hin, hmr]
  rcases eq_nil_or_concat' l with hnil | ⟨l', p, hc⟩
  · subst hnil
    exact ⟨x' :: r', rfl, hap', hsr, by simpa using hT⟩
  · subst hc
    obtain ⟨hal', -, hl'p⟩ := pairwise_append.1 hal
    have hpx : ∀ b ∈ x' :: r', p.limit ≤ b.startVa := by
      intro b hb
      have hp : p.limit ≤ x'.startVa := hst ▸ hx p (by simp)
      rcases mem_cons.1 hb with rfl | hb
      · exact hp
      · have h1 := (pairwise_cons.1 hap').1 b hb
        have h2 : x'.startVa ≤ x'.limit := Nat.le_add_right _ _
        omega
    obtain ⟨p', r'', hmr', hst', hsb', hap'', htl''⟩ :=
      mmpTryMergeNext_spec (l := l'.reverse) hap' hpx (fun b hb => hbd hT (mem_append_left _ hb))
    have hpr : Cursor.prev ⟨(l' ++ [p]).reverse, x', r'⟩ =
        some ⟨l'.reverse, p, x' :: r'⟩ := by simp [Cursor.prev]
    refine ⟨l' ++ p' :: r'', ?_, ?_, ?_, ?_⟩
    · simp only [hpr, hmr', Cursor.toTree, reverse_reverse]
    · exact Apart.append hal' hap'' fun a ha => hst' ▸ hl'p a ha p (by simp)
    · intro m hm
      rcases mem_append.1 hm with hm | hm
      · exact ⟨m, by simp [hm], rfl⟩
      rcases mem_cons.1 hm with rfl | hm
      · exact ⟨p, by simp, hst'⟩
      · exact hsr m (hsb' hm)
    · have hT' : NodesTile base limit (p :: (x' :: r') ++ (l' ++ ns)) := by
        refine hT.perm ?_
        have hmd : x' :: r' ++ (l' ++ [p] ++ ns) = (x' :: r' ++ l') ++ p :: ns := by simp
        rw [hmd]
        simpa using (perm_middle : (x' :: r' ++ l' ++ p :: ns).Perm (p :: (x' :: r' ++ l' ++ ns)))
      refine (htl'' hT').perm ?_
      simpa using (perm_append_comm : ((p' :: r'') ++ l').Perm (l' ++ p' :: r'')).append_right ns

/-! ## Failures -/

/-- If it fails, whatever was asked for, the allocation returns no node and the tree it was given. -/
def HeapResult.FailsClean (t : HeapTree) (res : HeapResult) : Prop :=
  res.status ≠ .success → res.tree = t ∧ res.outNode = none

variable {res : HeapResult}

theorem HeapResult.FailsClean.of_success (h : res.status = .success) : res.FailsClean t :=
  fun hne => absurd h hne

theorem HeapResult.FailsClean.of_unchanged {status : Status} : HeapResult.FailsClean t ⟨status, t, none⟩ :=
  fun _ => ⟨rfl, rfl⟩

theorem allocateSpaceAt_failsClean {n : Nat} {td pool : Bool} {c : Cursor AddressNode} (h : allocateSpaceAt n td pool c = some res) :
    res.FailsClean c.toTree := by
  simp only [allocateSpaceAt] at h
  split at h
  · rw [← some.inj h]
    exact .of_success rfl
  split at h
  · simp at h
  split at h
  · rw [← some.inj h]
    exact .of_unchanged
  · rw [← some.inj h]
    exact .of_success rfl

theorem mmAllocateAddressSpace_failsClean (t : HeapTree) (n : Nat) (td pool : Bool) :
    (mmAllocateAddressSpace t n td pool).FailsClean t := by
  simp only [mmAllocateAddressSpace]
  split
  · cases h : forDown (allocateSpaceAt n td pool) t.reverse [] with
    | none => exact .of_unchanged
    | some res =>
      obtain ⟨c, hc, hrs⟩ := forDown_eq_some h
      rw [reverse_reverse, append_nil] at hc
      exact hc ▸ allocateSpaceAt_failsClean hrs
  · cases h : forUp (allocateSpaceAt n td pool) [] t with
    | none => exact .of_unchanged
    | some res =>
      obtain ⟨c, hc, hrs⟩ := forUp_eq_some h
      rw [reverse_nil, nil_append] at hc
      exact hc ▸ allocateSpaceAt_failsClean hrs

theorem allocateRangeAt_failsClean (c : Cursor AddressNode) (va n : Nat) (pool1 pool2 : Bool) :
    (allocateRangeAt c va n pool1 pool2).FailsClean c.toTree := by
  exact allocateRangeAt_cases c va n pool1 pool2 (fun _ _ => .of_unchanged)
    (fun _ _ => .of_success rfl) (fun _ _ _ => .of_success rfl) (fun _ _ _ => .of_success rfl)
    fun _ _ _ => .of_success rfl

theorem mmAllocateAddressRange_failsClean (t : HeapTree) (va n : Nat) (pool1 pool2 : Bool) :
    (mmAllocateAddressRange t va n pool1 pool2).FailsClean t := by
  simp only [mmAllocateAddressRange]
  split
  · exact .of_unchanged
  · next c hc =>
      rw [← (lookUpApproximate_eq_some hc).1]
      exact allocateRangeAt_failsClean _ _ _ _ _

theorem mmFreeAddressSpace_failed {node : AddressNode}
    (h : (mmFreeAddressSpace t node).1 ≠ .success) : (mmFreeAddressSpace t node).2 = t := by
  simp only [mmFreeAddressSpace] at h ⊢
  split
  · exact Eq.refl t
  · next c hc =>
      simp only [hc] at h
      split at h <;> exact absurd rfl h

/-! ## Every run -/

/-- The free nodes and the nodes handed out partition `[base, limit)`, and the free nodes are merged:
    ordered, none empty, no two adjacent. -/
structure HeapSystem.Partitioned (base limit : Nat) (s : HeapSystem) : Prop where
  disjoint : (s.free ++ s.handed).Pairwise fun m n => m.limit ≤ n.startVa ∨ n.limit ≤ m.startVa
  covers : ∀ a, (∃ n ∈ s.free ++ s.handed, n.startVa ≤ a ∧ a < n.limit) ↔ base ≤ a ∧ a < limit
  nonempty : ∀ n ∈ s.free, 0 < n.size
  increasing : s.free.Pairwise fun a b => a.startVa < b.startVa
  notAdjacent : ∀ a ∈ s.free, ∀ b ∈ s.free, a.limit ≠ b.startVa

namespace HeapSystem

variable {base limit : Nat} {s s' : HeapSystem} {a : HeapCall} {status : Status}

theorem Inv.partitioned (h : s.Inv base limit) : s.Partitioned base limit where
  disjoint := h.tiles.disjoint
  covers := h.tiles.covers
  nonempty n hn := (AddressNode.size_pos_iff n).1 (h.tiles.nonempty n (mem_append_left _ hn))
  increasing := h.apart.ordered
  notAdjacent := by
    have hst : ∀ n : AddressNode, n.startVa ≤ n.limit := fun n => Nat.le_add_right _ _
    apply Pairwise.forall_of_forall_of_flip
    · intro n hn
      exact (h.tiles.nonempty n (mem_append_left _ hn)).ne'
    · exact h.apart.imp fun ha => ha.ne
    · exact h.apart.imp fun {a b} ha =>
        (((hst a).trans_lt ha).trans_le (hst b)).ne'

/-- A call within its contract keeps the invariant. -/
theorem Inv.call (hin : s.Inv base limit) (hlmt : limit ≤ wordSize) (hok : s.CallOk a)
    (h : s.call a = some (status, s')) : s'.Inv base limit := by
  have hlm : ∀ m ∈ s.free, m.limit ≤ wordSize := fun m hm =>
    (hin.tiles.bounds (mem_append_left _ hm)).2.trans hlmt
  have ha : ∀ res : HeapResult, res.Ok s.free → (s.afterAllocation res).Inv base limit := by
    rintro ⟨st, t', out⟩ (⟨-, o, hot, htk⟩ | ⟨-, htree, hot⟩)
    · obtain rfl : out = some o := hot
      exact hin.taken htk
    · obtain rfl : out = none := hot
      obtain rfl : t' = s.free := htree
      exact hin
  cases a with
  | allocateAddressSpace n td pool =>
    simp only [HeapSystem.call, some.injEq, Prod.mk.injEq] at h
    rw [← h.2]
    exact ha _ (mmAllocateAddressSpace_ok hin.apart hlm hok)
  | allocateAddressRange va n pool1 pool2 =>
    simp only [HeapSystem.call, some.injEq, Prod.mk.injEq] at h
    rw [← h.2]
    exact ha _ (mmAllocateAddressRange_ok hin.apart hlm
      (fun m hm => hin.aligned m (mem_append_left _ hm)) hok.1 hok.2)
  | freeAddressSpace node =>
    simp only [HeapSystem.call] at h
    split at h
    · next hme =>
        have hp : (s.free ++ s.handed).Perm (node :: s.free ++ s.handed.erase node) :=
          ((perm_cons_erase hme).append_left s.free).trans perm_middle
        obtain ⟨t', hfr, hap, hst, htl⟩ :=
          mmFreeAddressSpace_ok hlmt hin.apart (hin.tiles.perm hp)
        simp only [hfr, if_true, some.injEq, Prod.mk.injEq] at h
        rw [← h.2]
        refine ⟨hap, fun m hm => ?_, htl⟩
        rcases mem_append.1 hm with hm | hm
        · obtain ⟨m', hm', heq⟩ := hst m hm
          rw [heq]
          exact hin.aligned m' (hp.mem_iff.2 (mem_append_left _ hm'))
        · exact hin.aligned m (mem_append_right _ (mem_of_mem_erase hm))
    · simp at h

/-- A call that fails changes nothing, whether it is within the contract or not. -/
theorem call_failed (h : s.call a = some (status, s')) (hs : status ≠ .success) : s' = s := by
  have ha : ∀ res : HeapResult, res.FailsClean s.free → res.status ≠ .success →
      s.afterAllocation res = s := by
    intro res hrs hne
    obtain ⟨htree, hot⟩ := hrs hne
    simp [afterAllocation, htree, hot]
  cases a with
  | allocateAddressSpace n td pool =>
    simp only [call, some.injEq, Prod.mk.injEq] at h
    rw [← h.2]
    exact ha _ (mmAllocateAddressSpace_failsClean _ _ _ _) (h.1 ▸ hs)
  | allocateAddressRange va n pool1 pool2 =>
    simp only [call, some.injEq, Prod.mk.injEq] at h
    rw [← h.2]
    exact ha _ (mmAllocateAddressRange_failsClean _ _ _ _ _) (h.1 ▸ hs)
  | freeAddressSpace node =>
    simp only [call] at h
    split at h
    · simp only [some.injEq, Prod.mk.injEq] at h
      have hne : (mmFreeAddressSpace s.free node).1 ≠ .success := h.1 ▸ hs
      rw [← h.2, if_neg hne, mmFreeAddressSpace_failed hne]
    · simp at h

/-- The system right after `MmInitializeHeap`. -/
def init (pool : Bool) (initialVa initialSize : Nat) : HeapSystem :=
  ⟨mmInitializeHeap pool initialVa initialSize, []⟩

theorem init_inv {va n : Nat} (hva : va % pageSize = 0) (hn : 0 < n) :
    (init true va n).Inv va (va + n * pageSize) where
  apart := pairwise_singleton _ _
  aligned m hm := by
    obtain rfl := mem_singleton.1 hm
    exact hva
  tiles := Tiles.single (n := AddressNode.mk va n) ((AddressNode.size_pos_iff _).2 hn)

end HeapSystem

/-- **The heap partitions its region.** From a heap initialised over a page-aligned region, whatever
    the calls and the outcomes of the pool, as long as no request is for zero pages and no fixed range
    wraps into the node found for it, the free nodes and the nodes handed out tile the region, the
    free nodes are merged and in order, and a call that fails leaves everything as it was. -/
theorem heap_partitioned {va n : Nat} (hva : va % pageSize = 0) (hn : 0 < n)
    (hlimit : va + n * pageSize ≤ wordSize) {s : HeapSystem}
    (h : Reaches HeapSystem.step HeapSystem.CallOk (HeapSystem.init true va n) s) :
    s.Partitioned va (va + n * pageSize) ∧
      ∀ a status s', s.call a = some (status, s') → status ≠ .success → s' = s := by
  have hin : s.Inv va (va + n * pageSize) := by
    refine h.invariant (I := HeapSystem.Inv va (va + n * pageSize)) (HeapSystem.init_inv hva hn) ?_
    intro t a u ht hok hst
    obtain ⟨⟨status, u'⟩, hc, rfl⟩ := map_eq_some_iff.1 hst
    exact ht.call hlimit hok hc
  exact ⟨hin.partitioned, fun a status s' hc hne => HeapSystem.call_failed hc hne⟩

/-- `CallOk`, executable. -/
def HeapSystem.callTest (s : HeapSystem) : HeapCall → Bool
  | .allocateAddressSpace n _ _ => decide (n ≠ 0)
  | .allocateAddressRange va n _ _ =>
    decide (rangePages va n ≠ 0) &&
      (lookUpApproximate AddressNode.startVa s.free (pageBase va)).all fun c =>
        decide (¬ HeapSystem.WrapsInto c.entry (pageBase va) (rangePages va n))
  | .freeAddressSpace _ => true

theorem HeapSystem.callOk_of_test (s : HeapSystem) (a : HeapCall) (h : s.callTest a = true) :
    s.CallOk a := by
  cases a with
  | allocateAddressSpace n td pool =>
    simp only [callTest, decide_eq_true_eq] at h
    exact h
  | allocateAddressRange va n pool1 pool2 =>
    simp only [callTest, Bool.and_eq_true, decide_eq_true_eq] at h
    refine ⟨h.1, fun c hc => ?_⟩
    simpa [hc] using h.2
  | freeAddressSpace node => exact trivial

/-- A node from the top, one from the middle, a refused cut, and the first one back. -/
def sampleHeapCalls : List HeapCall :=
  [.allocateAddressSpace 2 true true, .allocateAddressRange 0x5000 2 true true,
    .allocateAddressRange 0x8000 1 false true, .freeAddressSpace ⟨0xF000, 2⟩]

theorem heap_partitioned_sample : HeapSystem.Partitioned 0x1000 (0x1000 + 16 * pageSize)
      ⟨[⟨0x1000, 4⟩, ⟨0x7000, 10⟩], [⟨0x5000, 2⟩]⟩ := by
  have hrn : runChecked HeapSystem.step HeapSystem.callTest sampleHeapCalls
      (HeapSystem.init true 0x1000 16) = some ⟨[⟨0x1000, 4⟩, ⟨0x7000, 10⟩], [⟨0x5000, 2⟩]⟩ := by
    decide +kernel
  exact (heap_partitioned (by decide) (by decide) (by decide +kernel)
    (Reaches.of_runChecked HeapSystem.callOk_of_test hrn)).1

/-- A view whose size wraps to zero pages loses the whole process heap; a one-page range at the top of
    the address space invents pages outside it; and `MmInitializeHeap` loses the region by itself when
    the pool is out of memory. -/
theorem heap_not_partitioned : (∃ s, (HeapSystem.mk (processHeap true) []).step
        (.allocateAddressSpace (viewSizePages 0xFFFFFFFFFFFFF001 0) false true) = some s ∧
      ¬ s.Partitioned mmFirstUserPage mmLastUserPage) ∧
    (∃ s, (HeapSystem.mk (processHeap true) []).step
        (.allocateAddressRange 0xFFFFFFFFFFFFF000 1 true true) = some s ∧
      ¬ s.Partitioned mmFirstUserPage mmLastUserPage) ∧
    ¬ (HeapSystem.mk (processHeap false) []).Partitioned mmFirstUserPage mmLastUserPage := by
  refine ⟨⟨⟨[], [⟨0x1000, 0⟩]⟩, by decide +kernel, fun h => ?_⟩,
    ⟨⟨[⟨0, 0x7FFFFFFFF⟩, ⟨0x1000, 0xFFFFFFFFFFFFE⟩], [⟨0xFFFFFFFFFFFFF000, 1⟩]⟩, by decide +kernel,
      fun h => ?_⟩, fun h => ?_⟩
  · obtain ⟨n, hn, hlo, hh⟩ := (h.covers mmFirstUserPage).2 ⟨le_rfl, by decide⟩
    obtain rfl := mem_singleton.1 hn
    exact absurd hh (by decide)
  · have hz := (h.covers 0).1 ⟨⟨0, 0x7FFFFFFFF⟩, by simp, by decide, by decide⟩
    exact absurd hz.1 (by decide)
  · obtain ⟨n, hn, -⟩ := (h.covers mmFirstUserPage).2 ⟨le_rfl, by decide⟩
    simp [processHeap, mmInitializeHeap] at hn

end Boron.Mm
