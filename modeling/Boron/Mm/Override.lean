import Boron.Lib.Spans
import Boron.Mm.UserRange

/-! # What `MmOverrideAddressRange` leaves

The VADs and the free nodes of a process are two lists of spans, known by what they show at each
address. The VAD loop carves the range out of the first and moves the VADs inside the range to the
second, the heap loop carves the second. What each shows outside the range stays, so with the range
itself they tile the user region again, unless the range ends with the region: the last trim then
takes a page off that nobody owns afterwards. -/

namespace Boron.Mm

open List

/-! ## The attributes of a page -/

/-- What a VAD says about an address. -/
structure PageAttributes where
  object : Option Nat
  offset : Option Nat
  committed : Bool
  isPrivate : Bool
  protection : Nat
  deriving DecidableEq

def Vad.limit (v : Vad) : Nat := v.node.limit

/-- The offset counts only in a mapped object. -/
def Vad.attributes (v : Vad) (va : Nat) : PageAttributes where
  object := v.mappedObject
  offset := v.mappedObject.map fun _ => addW v.sectionOffset (va - v.startVa)
  committed := v.committed
  isPrivate := v.isPrivate
  protection := v.protection

namespace AddressSpace

/-- The address is mapped with these attributes. -/
def Maps (s : AddressSpace) (va : Nat) (p : PageAttributes) : Prop :=
  Shows Vad.startVa Vad.limit Vad.attributes s.vads va p

/-- The address is free. -/
def Free (s : AddressSpace) (va : Nat) : Prop :=
  Covers AddressNode.startVa AddressNode.limit s.heap va

/-- The VADs' nodes and the free nodes. -/
def nodes (s : AddressSpace) : List AddressNode := s.vads.map Vad.node ++ s.heap

/-- The trees are ordered, every node is page aligned, and together they tile the user region. -/
structure Tiled (s : AddressSpace) : Prop where
  vads : Ordered Vad.startVa s.vads
  heap : Ordered AddressNode.startVa s.heap
  aligned : ∀ n ∈ s.nodes, n.startVa % pageSize = 0
  tiles : NodesTile mmFirstUserPage mmLastUserPage s.nodes

end AddressSpace

/-- A range of pages inside the user region. -/
structure UserPages where
  startVa : Nat
  size : Nat
  aligned : startVa % pageSize = 0
  size_pos : 0 < size
  first_le : mmFirstUserPage ≤ startVa
  le_last : startVa + size * pageSize ≤ mmLastUserPage

namespace UserPages

def node (r : UserPages) : AddressNode := ⟨r.startVa, r.size⟩

/-- The end of the range. -/
def limit (r : UserPages) : Nat := r.node.limit

def Holds (r : UserPages) (va : Nat) : Prop := r.startVa ≤ va ∧ va < r.limit

end UserPages

/-- What overriding `r` should do to the address space `s`. -/
structure Overridden (r : UserPages) (s s' : AddressSpace) (out : AddressNode) : Prop where
  clear : ∀ n ∈ s'.nodes, n.limit ≤ r.startVa ∨ r.limit ≤ n.startVa
  mapped : ∀ va, ¬ r.Holds va → ∀ p, s'.Maps va p ↔ s.Maps va p
  free : ∀ va, ¬ r.Holds va → (s'.Free va ↔ s.Free va)
  node : out = r.node
  tiles : NodesTile mmFirstUserPage mmLastUserPage (out :: s'.nodes)

/-- The call returns; if it succeeds the range has been overridden, if it fails nothing has changed. -/
def OverrideRight (e : Surroundings) (s : AddressSpace) (r : UserPages) : Prop :=
  ∃ status s' out, mmOverrideAddressRange e s r.startVa r.size = some (status, s', out) ∧
    (status = .success → ∃ node, out = some node ∧ Overridden r s s' node) ∧
    (status ≠ .success → s' = s ∧ out = none)

/-! ## Spans of a process -/

/-- Free nodes in order, each of them a user node. -/
structure FreeLined (t : HeapTree) : Prop where
  lined : Lined AddressNode.startVa AddressNode.limit t
  user : UserNodes t

namespace FreeLined

variable {l r t u : HeapTree} {m x : AddressNode}

theorem append_iff : FreeLined (t ++ u) ↔
    FreeLined t ∧ FreeLined u ∧ ∀ a ∈ t, ∀ b ∈ u, a.limit ≤ b.startVa := by
  constructor
  · rintro ⟨hl, hu⟩
    obtain ⟨h1, h2, h3⟩ := Lined.append_iff.1 hl
    exact ⟨⟨h1, fun m hm => hu m (mem_append_left _ hm)⟩,
      ⟨h2, fun m hm => hu m (mem_append_right _ hm)⟩, h3⟩
  · rintro ⟨h1, h2, h3⟩
    refine ⟨Lined.append_iff.2 ⟨h1.lined, h2.lined, h3⟩, fun m hm => ?_⟩
    rcases mem_append.1 hm with hm | hm
    · exact h1.user m hm
    · exact h2.user m hm

theorem cons_iff : FreeLined (m :: t) ↔
    (m.startVa < m.limit ∧ UserNode m) ∧ FreeLined t ∧ ∀ b ∈ t, m.limit ≤ b.startVa := by
  constructor
  · rintro ⟨hl, hu⟩
    obtain ⟨h1, h2, h3⟩ := Lined.cons_iff.1 hl
    exact ⟨⟨h1, hu m mem_cons_self⟩, ⟨h2, fun n hn => hu n (mem_cons_of_mem _ hn)⟩, h3⟩
  · rintro ⟨h1, h2, h3⟩
    exact ⟨Lined.cons_iff.2 ⟨h1.1, h2.lined, h3⟩, forall_mem_cons.2 ⟨h1.2, h2.user⟩⟩

theorem tryMergeNext (h : FreeLined (m :: r)) (l : List AddressNode) :
    ∃ m' r', mmpTryMergeNext ⟨l, m, r⟩ = ⟨l, m', r'⟩ ∧ m'.startVa = m.startVa ∧
      FreeLined (m' :: r') ∧ ∀ a, Covers AddressNode.startVa AddressNode.limit (m' :: r') a ↔
        Covers AddressNode.startVa AddressNode.limit (m :: r) a := by
  cases r with
  | nil => exact ⟨m, [], rfl, rfl, h, fun _ => Iff.rfl⟩
  | cons next r =>
    obtain ⟨⟨hm, hu⟩, hr, hmr⟩ := cons_iff.1 h
    obtain ⟨⟨hn, hun⟩, hr', hnr⟩ := cons_iff.1 hr
    by_cases ha : next.startVa = m.endVa
    · have ha' : m.limit = next.startVa := by rw [ha, hu.endVa_eq]
      have hli : m.startVa + m.size * pageSize + next.size * pageSize = next.limit := by
        rw [AddressNode.limit, ← ha', AddressNode.limit]
      have hsize : addW m.size next.size = m.size + next.size :=
        addW_of_lt (sizes_lt_wordSize (hli.trans_le hun.limit_lt.le)
          ((AddressNode.size_pos_iff next).1 hn))
      have hlm : AddressNode.limit ⟨m.startVa, m.size + next.size⟩ = next.limit := by
        rw [AddressNode.limit_extend, ha', AddressNode.limit]
      refine ⟨⟨m.startVa, m.size + next.size⟩, r, ?_, rfl, ?_, fun a => ?_⟩
      · simp only [mmpTryMergeNext, if_pos ha, hsize]
      · refine cons_iff.2 ⟨⟨?_, hu.aligned, ?_, ?_⟩, hr', fun b hb => ?_⟩
        · rw [hlm]
          exact hm.trans_le (ha'.le.trans hn.le)
        · exact hu.inRange.1
        · exact hlm.trans_le hun.inRange.2
        · rw [hlm]
          exact hnr b hb
      · rw [covers_cons, covers_cons, covers_cons, hlm, ← or_assoc]
        refine or_congr_left ?_
        show m.startVa ≤ a ∧ a < next.limit ↔ _
        omega
    · exact ⟨m, next :: r, by simp only [mmpTryMergeNext, if_neg ha], rfl, h, fun _ => Iff.rfl⟩

theorem free (h : FreeLined t) (hx : x.startVa < x.limit) (hu : UserNode x)
    (hw : ∀ a, x.startVa ≤ a → a < x.limit → ¬ Covers AddressNode.startVa AddressNode.limit t a) :
    ∃ t', mmFreeAddressSpace t x = (.success, t') ∧ FreeLined t' ∧
      ∀ a, Covers AddressNode.startVa AddressNode.limit t' a ↔
        (x.startVa ≤ a ∧ a < x.limit) ∨ Covers AddressNode.startVa AddressNode.limit t a := by
  obtain ⟨l, r, rfl, hin, hlx, hxr⟩ := insertItem_apart (t := t) (x := x) h.lined.starts
    (forall_mem_cons.2 ⟨hx, h.lined.nonempty⟩) fun b hb =>
      apart_of_no_common hx (h.lined.nonempty b hb) fun a h1 h2 h3 h4 => hw a h1 h2 ⟨b, hb, h3, h4⟩
  obtain ⟨hl, hr, _⟩ := append_iff.1 h
  obtain ⟨x', r', hmr, hst, hx'r', hc⟩ :=
    tryMergeNext (cons_iff.2 ⟨⟨hx, hu⟩, hr, hxr⟩) l.reverse
  simp only [mmFreeAddressSpace, hin, hmr]
  have hlx' : ∀ a ∈ l, ∀ b ∈ x' :: r', a.limit ≤ b.startVa := by
    intro a ha b hb
    have hax : a.limit ≤ x'.startVa := hst ▸ hlx a ha
    rcases mem_cons.1 hb with rfl | hb
    · exact hax
    · obtain ⟨⟨hpos, _⟩, _, hbf⟩ := cons_iff.1 hx'r'
      exact hax.trans (hpos.le.trans (hbf b hb))
  have hal : FreeLined (l ++ x' :: r') := append_iff.2 ⟨hl, hx'r', hlx'⟩
  have hcv : ∀ a, Covers AddressNode.startVa AddressNode.limit (l ++ x' :: r') a ↔
      (x.startVa ≤ a ∧ a < x.limit) ∨ Covers AddressNode.startVa AddressNode.limit (l ++ r) a := by
    intro a
    rw [covers_append, hc, covers_cons, covers_append]
    exact or_left_comm
  rcases eq_nil_or_concat' l with rfl | ⟨l', p, rfl⟩
  · exact ⟨x' :: r', rfl, hal, hcv⟩
  · have hsp : l' ++ [p] ++ x' :: r' = l' ++ p :: x' :: r' := by simp
    rw [hsp] at hal
    obtain ⟨hl', hp, hl'p⟩ := append_iff.1 hal
    obtain ⟨p', r'', hmr', hst', hp'r'', hc'⟩ := tryMergeNext hp l'.reverse
    have hpr : Cursor.prev ⟨(l' ++ [p]).reverse, x', r'⟩ = some ⟨l'.reverse, p, x' :: r'⟩ := by
      simp [Cursor.prev]
    refine ⟨l' ++ p' :: r'', ?_, append_iff.2 ⟨hl', hp'r'', fun a ha b hb => ?_⟩, fun a => ?_⟩
    · simp only [hpr, hmr', Cursor.toTree, reverse_reverse]
    · have hap : a.limit ≤ p'.startVa := hst' ▸ hl'p a ha p mem_cons_self
      rcases mem_cons.1 hb with rfl | hb
      · exact hap
      · obtain ⟨⟨hpos, _⟩, _, hbf⟩ := cons_iff.1 hp'r''
        exact hap.trans (hpos.le.trans (hbf b hb))
    · rw [← hcv, hsp, covers_append, hc', covers_append]

end FreeLined

/-! ## The pieces of a node -/

section

variable {startVa endVa : Nat} {m : AddressNode}

theorem lower_limit (h : UserNode m) (hst : startVa % pageSize = 0) (hlo : m.startVa < startVa)
    (hh : startVa < m.limit) :
    AddressNode.limit ⟨m.startVa, subW startVa m.startVa / pageSize⟩ = startVa := by
  have ha := h.aligned
  rw [subW_of_le hlo.le (hh.trans h.limit_lt)]
  simp only [AddressNode.limit, pageSize] at *
  omega

theorem upper_limit (h : UserNode m) (he : endVa % pageSize = 0) (hh : endVa < m.limit) :
    AddressNode.limit ⟨endVa, subW m.endVa endVa / pageSize⟩ = m.limit := by
  have ha := h.aligned
  rw [h.endVa_eq, subW_of_le hh.le h.limit_lt]
  simp only [AddressNode.limit, pageSize] at *
  omega

theorem rest_startVa (h : UserNode m) (hlo : m.startVa < endVa) (hh : endVa < m.limit) :
    addW m.startVa (subW endVa m.startVa) = endVa := by
  have := h.limit_lt
  rw [subW_of_le hlo.le (hh.trans h.limit_lt), addW_of_lt] <;> omega

theorem rest_limit (h : UserNode m) (he : endVa % pageSize = 0) (hlo : m.startVa < endVa)
    (hh : endVa < m.limit) :
    AddressNode.limit ⟨endVa, subW m.size (subW endVa m.startVa / pageSize)⟩ = m.limit := by
  have ha := h.aligned
  have hlm := h.limit_lt
  have hsize : m.size < wordSize := by
    simp only [AddressNode.limit, pageSize] at hlm
    omega
  have hle : (endVa - m.startVa) / pageSize ≤ m.size := by
    simp only [AddressNode.limit, pageSize] at *
    omega
  rw [subW_of_le hlo.le (hh.trans hlm), subW_of_le hle hsize]
  simp only [AddressNode.limit, pageSize] at *
  omega

end

/-! ## The heap loop -/

/-- Carving free nodes. -/
abbrev HeapCarved (startVa endVa : Nat) (t t' : HeapTree) : Prop :=
  Carved AddressNode.startVa AddressNode.limit (fun _ _ => ()) startVa endVa t t'

section

variable {startVa endVa : Nat} {left right : List AddressNode}

theorem overrideHeapWalk_clear (h : UserNodes right)
    (hc : ∀ m ∈ right, m.limit ≤ startVa ∨ endVa ≤ m.startVa) :
    overrideHeapWalk startVa endVa left right = some (.done (left.reverse ++ right)) := by
  induction right generalizing left with
  | nil => simp [overrideHeapWalk]
  | cons m right ih =>
    have hm := hc m mem_cons_self
    rw [overrideHeapWalk, if_pos (by rw [(h m mem_cons_self).endVa_eq]; exact hm.symm),
      ih (fun n hn => h n (mem_cons_of_mem _ hn)) fun n hn => hc n (mem_cons_of_mem _ hn)]
    simp

/-- What a walk makes of the nodes before it: it carves them all, or all but the upper half of the
node that it splits. -/
def HeapWalk.Carves (startVa endVa : Nat) (left right : HeapTree) : HeapWalk → Prop
  | .done tree => ∃ t, tree = left.reverse ++ t ∧ HeapCarved startVa endVa right t
  | .split tree temp => ∃ l low r, tree = left.reverse ++ (l ++ low :: r) ∧
      HeapCarved startVa endVa right (l ++ low :: temp :: r)

theorem HeapWalk.Carves.cons {m : AddressNode} {ps left' : HeapTree} {w : HeapWalk}
    (h : FreeLined (m :: right)) (hm : HeapCarved startVa endVa [m] ps)
    (hlf : left'.reverse = left.reverse ++ ps) (hw : w.Carves startVa endVa left' right) :
    w.Carves startVa endVa left (m :: right) := by
  cases w with
  | done tree =>
    obtain ⟨t, rfl, ht⟩ := hw
    exact ⟨ps ++ t, by rw [hlf, append_assoc], hm.cons h.lined ht⟩
  | split tree temp =>
    obtain ⟨l, low, r, rfl, ht⟩ := hw
    refine ⟨ps ++ l, low, r, by simp [hlf], ?_⟩
    rw [append_assoc]
    exact hm.cons h.lined ht

theorem overrideHeapWalk_carves (hst : startVa % pageSize = 0) (he : endVa % pageSize = 0)
    (hse : startVa < endVa) (left : List AddressNode) (h : FreeLined right) :
    ∃ w, overrideHeapWalk startVa endVa left right = some w ∧ w.Carves startVa endVa left right := by
  induction right generalizing left with
  | nil => exact ⟨.done left.reverse, rfl, [], (append_nil _).symm, Carved.nil⟩
  | cons m right ih =>
    obtain ⟨⟨hpos, hm⟩, hrg, hb⟩ := FreeLined.cons_iff.1 h
    rw [overrideHeapWalk, hm.endVa_eq]
    split
    · next hcl =>
      obtain ⟨w, hw, hc⟩ := ih (m :: left) hrg
      refine ⟨w, hw, hc.cons h (Carved.of_clear (Lined.singleton_iff.2 hpos) ?_) (by simp)⟩
      intro n hn
      rw [mem_singleton.1 hn]
      exact hcl.symm
    next hov =>
    rw [not_or, not_le, not_le] at hov
    split
    · next hh =>
      obtain ⟨w, hw, hc⟩ := ih left hrg
      exact ⟨w, hw, hc.cons h (Carved.whole hh.1 hh.2) (by simp)⟩
    split
    · next hp =>
      -- the nodes behind it lie behind the range as well
      refine ⟨_, rfl, [], ⟨m.startVa, subW startVa m.startVa / pageSize⟩, right, by simp, ?_⟩
      have hrs : HeapCarved startVa endVa right right := Carved.of_clear hrg.lined fun n hn =>
        .inr (hp.2.le.trans (hb n hn))
      have hlw := lower_limit hm hst hp.1 (hse.trans hp.2)
      have hup := upper_limit hm he hp.2
      rw [hm.endVa_eq] at hup
      have hbt : HeapCarved startVa endVa [m]
          [⟨m.startVa, subW startVa m.startVa / pageSize⟩, ⟨endVa, subW m.limit endVa / pageSize⟩] :=
        Carved.both rfl hlw rfl hup hp.1 hse.le hp.2 (fun _ _ => rfl) fun _ _ => rfl
      have ha := hbt.cons h.lined hrs
      exact ha
    split
    · next hlr =>
      obtain ⟨w, hw, hc⟩ := ih (⟨m.startVa, subW startVa m.startVa / pageSize⟩ :: left) hrg
      have hlw : HeapCarved startVa endVa [m] [⟨m.startVa, subW startVa m.startVa / pageSize⟩] :=
        Carved.lower rfl (lower_limit hm hst hlr.1 hov.2) hlr.1 hov.2.le hlr.2 fun _ _ => rfl
      exact ⟨w, hw, hc.cons h hlw reverse_cons⟩
    split
    · next hu =>
      have hva := rest_startVa hm hov.1 hu.2
      dsimp only
      rw [hva]
      obtain ⟨w, hw, hc⟩ := ih (⟨endVa, subW m.size (subW endVa m.startVa / pageSize)⟩ :: left) hrg
      have hup : HeapCarved startVa endVa [m]
          [⟨endVa, subW m.size (subW endVa m.startVa / pageSize)⟩] :=
        Carved.upper rfl (rest_limit hm he hov.1 hu.2) hu.1 hov.1.le hu.2 fun _ _ => rfl
      exact ⟨w, hw, hc.cons h hup reverse_cons⟩
    · omega

theorem overrideHeap_carves (hst : startVa % pageSize = 0) (he : endVa % pageSize = 0)
    (hse : startVa < endVa) {heap : HeapTree} (h : FreeLined heap) :
    ∃ heap', overrideHeap startVa endVa heap = some heap' ∧ FreeLined heap' ∧
      ∀ a, Covers AddressNode.startVa AddressNode.limit heap' a ↔
        Covers AddressNode.startVa AddressNode.limit heap a ∧ ¬ (startVa ≤ a ∧ a < endVa) := by
  obtain ⟨w, hw, hc⟩ := overrideHeapWalk_carves hst he hse [] h
  have hu := overrideHeapWalk_inUser hst he (fun _ hm => by simp at hm) h.user hw
  unfold overrideHeap
  rw [hw]
  cases w with
  | done tree =>
    obtain ⟨t, rfl, ht⟩ := hc
    exact ⟨_, rfl, ⟨ht.lined, hu⟩, fun a => ht.covers⟩
  | split tree temp =>
    obtain ⟨l, low, r, htree, ht⟩ := hc
    obtain rfl : tree = l ++ low :: r := htree
    obtain ⟨hus, hut⟩ := hu
    -- the tree and the upper half, which is not in it yet
    obtain ⟨hl, hlow, hlw⟩ := Lined.append_iff.1 ht.lined
    obtain ⟨hp, htm, hlwt⟩ := Lined.cons_iff.1 hlow
    obtain ⟨hts, hr, htr⟩ := Lined.cons_iff.1 htm
    have hlr : Lined AddressNode.startVa AddressNode.limit (low :: r) :=
      Lined.cons_iff.2 ⟨hp, hr, fun b hb => hlwt b (mem_cons_of_mem _ hb)⟩
    have htree : FreeLined (l ++ low :: r) := by
      refine ⟨Lined.append_iff.2 ⟨hl, hlr, fun a ha b hb => hlw a ha b ?_⟩, hus⟩
      simp only [mem_cons] at hb ⊢
      tauto
    have hnw : ∀ a, temp.startVa ≤ a → a < temp.limit →
        ¬ Covers AddressNode.startVa AddressNode.limit (l ++ low :: r) a := by
      rintro a hlo hh ⟨n, hn, hna, han⟩
      rcases mem_append.1 hn with hn | hn
      · have := hlw n hn temp (by simp)
        omega
      rcases mem_cons.1 hn with rfl | hn
      · have := hlwt temp (by simp)
        omega
      · have := htr n hn
        omega
    obtain ⟨t, hfr, hln, hcv⟩ := htree.free hts hut hnw
    have hal : ∀ a, Covers AddressNode.startVa AddressNode.limit t a ↔
        Covers AddressNode.startVa AddressNode.limit heap a ∧ ¬ (startVa ≤ a ∧ a < endVa) := by
      intro a
      rw [hcv, ← ht.covers]
      simp only [covers_append, covers_cons]
      exact or_left_comm.trans (or_congr_right or_left_comm)
    have hcl : ∀ m ∈ t, m.limit ≤ startVa ∨ endVa ≤ m.startVa := fun m hm =>
      clear_of_outside hse (hln.lined.nonempty m hm) fun a hlo hh =>
        ((hal a).1 ⟨m, hm, hlo, hh⟩).2
    refine ⟨t, ?_, hln, hal⟩
    simp only [hfr, overrideHeapWalk_clear hln.user hcl, reverse_nil, nil_append]

end

/-! ## The VAD loop -/

/-- Carving VADs, with what they say about each page. -/
abbrev VadsCarved (startVa endVa : Nat) (t t' : List Vad) : Prop :=
  Carved Vad.startVa Vad.limit Vad.attributes startVa endVa t t'

/-- A VAD whose node is a part of the node of another, with the offset moved along, says the same. -/
theorem attributes_moved {v w : Vad} {d va : Nat} (hva : v.startVa + d ≤ va)
    (hw : w.startVa = v.startVa + d) (hb : w.mappedObject = v.mappedObject)
    (hof : v.mappedObject.isSome → w.sectionOffset = addW v.sectionOffset d)
    (hfl : w.committed = v.committed ∧ w.isPrivate = v.isPrivate ∧ w.protection = v.protection) :
    w.attributes va = v.attributes va := by
  obtain ⟨h1, h2, h3⟩ := hfl
  unfold Vad.attributes
  rw [hb, h1, h2, h3, hw]
  cases hv : v.mappedObject with
  | none => rfl
  | some o =>
    rw [hof (by rw [hv]; rfl)]
    have ha : addW (addW v.sectionOffset d) (va - (v.startVa + d))
        = addW v.sectionOffset (va - v.startVa) := by
      unfold addW
      rw [Nat.mod_add_mod, Nat.add_assoc]
      congr 2
      omega
    simp only [Option.map_some, ha]

section

variable {startVa n endVa : Nat} {t : Tables} {right : List Vad}

/-- What the VAD loop makes of the VADs before it and of the heap: it carves the VADs, and outside the
range the heap stays. -/
structure VadsOverridden (startVa endVa : Nat) (right : List Vad) (heap : HeapTree) (vs : List Vad)
    (heap' : HeapTree) : Prop where
  vads : VadsCarved startVa endVa right vs
  lined : FreeLined heap'
  freed : ∀ a, Covers AddressNode.startVa AddressNode.limit heap' a →
    Covers AddressNode.startVa AddressNode.limit heap a ∨ Covers Vad.startVa Vad.limit right a
  outside : ∀ a, ¬ (startVa ≤ a ∧ a < endVa) →
    (Covers AddressNode.startVa AddressNode.limit heap' a ↔
      Covers AddressNode.startVa AddressNode.limit heap a)

theorem VadsOverridden.cons {v : Vad} {ps vs : List Vad} {heap heap' : HeapTree}
    (h : Lined Vad.startVa Vad.limit (v :: right)) (hv : VadsCarved startVa endVa [v] ps)
    (hrs : VadsOverridden startVa endVa right heap vs heap') :
    VadsOverridden startVa endVa (v :: right) heap (ps ++ vs) heap' where
  vads := hv.cons h hrs.vads
  lined := hrs.lined
  freed a ha := by
    rw [covers_cons]
    have := hrs.freed a ha
    tauto
  outside := hrs.outside

theorem VadsOverridden.release {v : Vad} {vs : List Vad} {heap heap₁ heap' : HeapTree}
    (h : Lined Vad.startVa Vad.limit (v :: right)) (hs : startVa ≤ v.startVa) (he : v.limit ≤ endVa)
    (hfr : ∀ a, Covers AddressNode.startVa AddressNode.limit heap₁ a ↔
      (v.startVa ≤ a ∧ a < v.limit) ∨ Covers AddressNode.startVa AddressNode.limit heap a)
    (hrs : VadsOverridden startVa endVa right heap₁ vs heap') :
    VadsOverridden startVa endVa (v :: right) heap vs heap' where
  vads := by
    have hal := Carved.cons h (Carved.whole hs he) hrs.vads
    exact hal
  lined := hrs.lined
  freed a ha := by
    have := hrs.freed a ha
    rw [hfr] at this
    rw [covers_cons]
    tauto
  outside a ha := by
    rw [hrs.outside a ha, hfr]
    refine or_iff_right fun hva => ha ⟨hs.trans hva.1, hva.2.trans_le he⟩

theorem overrideVads_overridden (hst : startVa % pageSize = 0) (he : endVa % pageSize = 0)
    (hse : startVa < endVa) (had : addW startVa (mulW n pageSize) = endVa)
    (h : Lined Vad.startVa Vad.limit right) (hu : UserVads right) {heap : HeapTree}
    (hh : FreeLined heap)
    (hnw : ∀ a, Covers AddressNode.startVa AddressNode.limit heap a →
      ¬ Covers Vad.startVa Vad.limit right a) (left : List Vad) (log : List Nat) :
    ∃ vs heap' log', overrideVads t startVa n left right heap log
        = some (left.reverse ++ vs, heap', log') ∧
      VadsOverridden startVa endVa right heap vs heap' := by
  induction right generalizing left heap log with
  | nil =>
    exact ⟨[], heap, log, by simp [overrideVads], ⟨Carved.nil, hh, fun _ => .inl, fun _ _ => Iff.rfl⟩⟩
  | cons v right ih =>
    obtain ⟨hpos, hrg, hb⟩ := Lined.cons_iff.1 h
    have hv : UserNode v.node := hu v mem_cons_self
    have hu' : UserVads right := fun w hw => hu w (mem_cons_of_mem _ hw)
    have hnw' : ∀ a, Covers AddressNode.startVa AddressNode.limit heap a →
        ¬ Covers Vad.startVa Vad.limit right a := fun a ha hcv =>
      hnw a ha (covers_cons.2 (.inr hcv))
    have hvn : v.node.endVa = v.limit := hv.endVa_eq
    have hvs : v.node.startVa = v.startVa := rfl
    rw [overrideVads]
    simp only [had, hvn, hvs]
    by_cases hc : endVa ≤ v.startVa ∨ v.limit ≤ startVa
    · rw [if_pos hc]
      obtain ⟨vs, heap', log', hrn, hrs⟩ := ih hrg hu' hh hnw' (v :: left) log
      refine ⟨v :: vs, heap', log', by simpa using hrn,
        hrs.cons h (Carved.of_clear (Lined.singleton_iff.2 hpos) fun w hw => ?_)⟩
      rw [mem_singleton.1 hw]
      exact hc.symm
    rw [if_neg hc]
    have hov : v.startVa < endVa ∧ startVa < v.limit := by
      rwa [not_or, not_le, not_le] at hc
    by_cases hwh : startVa ≤ v.startVa ∧ v.limit ≤ endVa
    · rw [if_pos hwh]
      obtain ⟨heap₁, hfr, hln, hcv⟩ := hh.free (x := v.node) hpos hv fun a hlo hhi ha =>
        hnw a ha (covers_cons.2 (.inl ⟨hlo, hhi⟩))
      have hnw₁ : ∀ a, Covers AddressNode.startVa AddressNode.limit heap₁ a →
          ¬ Covers Vad.startVa Vad.limit right a := by
        intro a ha
        rcases (hcv a).1 ha with ha | ha
        · exact h.not_covers_tail ha
        · exact hnw' a ha
      simp only [miReleaseVad, hfr, if_true]
      obtain ⟨vs, heap', log', hrn, hrs⟩ := ih hrg hu' hln hnw₁ left _
      exact ⟨vs, heap', log', hrn, hrs.release h hwh.1 hwh.2 hcv⟩
    rw [if_neg hwh]
    by_cases hp : v.startVa < startVa ∧ endVa < v.limit
    · rw [if_pos hp]
      -- no VAD behind it reaches the range, and the loop ends
      have hlow := lower_limit hv hst hp.1 (hse.trans hp.2)
      have hup := upper_limit hv he hp.2
      rw [hvn] at hup
      have hks : ∀ w ∈ right, endVa < w.startVa := fun w hw => hp.2.trans_le (hb w hw)
      have hof := subW_of_le hov.1.le (hp.2.trans hv.limit_lt)
      generalize hvd1 : ({ v with
        node := ⟨v.startVa, subW startVa v.startVa / pageSize⟩ } : Vad) = vad1
      generalize hvd2 : ({ v with
        node := ⟨endVa, subW v.limit endVa / pageSize⟩
        sectionOffset := if v.mappedObject.isSome then addW v.sectionOffset (subW endVa v.startVa)
          else 0 } : Vad) = vad2
      have hy1 : vad1.startVa = v.startVa := by rw [← hvd1]; rfl
      have hy2 : vad2.startVa = endVa := by rw [← hvd2]; rfl
      have hin : Cursor.insertItem Vad.startVa ⟨left, vad1, right⟩ vad2
          = some ⟨left, vad1, vad2 :: right⟩ :=
        Cursor.insertItem_right (by rw [hy1, hy2]; exact hov.1) (by simpa only [hy2] using hks)
      have hbt : VadsCarved startVa endVa [v] [vad1, vad2] := by
        refine Carved.both hy1 ?_ hy2 ?_ hp.1 hse.le hp.2 (fun a _ => ?_) fun a ha => ?_
        · rw [← hvd1]
          exact hlow
        · rw [← hvd2]
          exact hup
        · rw [← hvd1]
          rfl
        · refine attributes_moved (d := endVa - v.startVa) (by omega) (by omega) ?_ ?_ ?_
          · rw [← hvd2]
          · intro hob
            rw [← hvd2, ← hof]
            exact if_pos hob
          · rw [← hvd2]
            exact ⟨rfl, rfl, rfl⟩
      have hrs : VadsOverridden startVa endVa right heap right heap :=
        ⟨Carved.of_clear hrg fun w hw => .inr (hks w hw).le, hh, fun _ => .inl, fun _ _ => Iff.rfl⟩
      refine ⟨[vad1, vad2] ++ right, heap,
        (miDecommitVad t { v with committed := false } startVa n false log).2, ?_, hrs.cons h hbt⟩
      rw [hin]
      rfl
    rw [if_neg hp]
    by_cases hlw : v.startVa < startVa ∧ v.limit ≤ endVa
    · rw [if_pos hlw]
      have hlow := lower_limit hv hst hlw.1 hov.2
      obtain ⟨vs, heap', log', hrn, hrs⟩ := ih hrg hu' hh hnw'
        ({ v with node := ⟨v.startVa, subW startVa v.startVa / pageSize⟩ } :: left) _
      have hkp : VadsCarved startVa endVa [v]
          [{ v with node := ⟨v.startVa, subW startVa v.startVa / pageSize⟩ }] :=
        Carved.lower rfl hlow hlw.1 hov.2.le hlw.2 fun _ _ => rfl
      exact ⟨_ ++ vs, heap', log', hrn.trans (by simp), hrs.cons h hkp⟩
    rw [if_neg hlw]
    by_cases hur : startVa ≤ v.startVa ∧ endVa < v.limit
    · rw [if_pos hur]
      have hva := rest_startVa hv hov.1 hur.2
      have hup := rest_limit hv he hov.1 hur.2
      have hof := subW_of_le hov.1.le (hur.2.trans hv.limit_lt)
      rw [hvs] at hva hup
      rw [hva]
      generalize hvd1 : ({ v with
        node := ⟨endVa, subW v.node.size (subW endVa v.startVa / pageSize)⟩
        sectionOffset := if v.mappedObject.isSome then addW v.sectionOffset (subW endVa v.startVa)
          else v.sectionOffset } : Vad) = vad1
      obtain ⟨vs, heap', log', hrn, hrs⟩ := ih hrg hu' hh hnw' (vad1 :: left) _
      have hkp : VadsCarved startVa endVa [v] [vad1] := by
        refine Carved.upper ?_ ?_ hur.1 hov.1.le hur.2 fun a ha => ?_
        · rw [← hvd1]
          rfl
        · rw [← hvd1]
          exact hup
        · refine attributes_moved (d := endVa - v.startVa) (by omega) ?_ ?_ ?_ ?_
          · rw [← hvd1]
            show endVa = _
            omega
          · rw [← hvd1]
          · intro hob
            rw [← hvd1, ← hof]
            exact if_pos hob
          · rw [← hvd1]
            exact ⟨rfl, rfl, rfl⟩
      exact ⟨[vad1] ++ vs, heap', log', hrn.trans (by simp), hrs.cons h hkp⟩
    · omega

end

/-! ## The call -/

section

variable {s : AddressSpace} {r : UserPages}

theorem UserPages.limit_eq (r : UserPages) : addW r.startVa (mulW r.size pageSize) = r.limit := by
  rw [addW_mulW_pageSize, Nat.mod_eq_of_lt (r.le_last.trans_lt (by decide))]
  rfl

theorem UserPages.startVa_lt_limit (r : UserPages) : r.startVa < r.limit :=
  (AddressNode.size_pos_iff r.node).2 r.size_pos

theorem UserPages.limit_aligned (r : UserPages) : r.limit % pageSize = 0 :=
  UserNode.aligned_add r.aligned r.size

theorem trimRange_eq (r : UserPages) : trimRange r.startVa r.size =
    ⟨r.startVa, if r.limit = mmLastUserPage then r.size - 1 else r.size⟩ := by
  have hfs := r.first_le
  have hls := r.le_last
  have hpos := r.size_pos
  have hz : r.startVa ≠ 0 := by
    rintro h
    rw [h] at hfs
    exact absurd hfs (by decide)
  have hb : subW r.size 1 = r.size - 1 := by
    refine subW_of_le hpos ?_
    unfold wordSize pageSize mmLastUserPage at *
    omega
  have hlm : mmLastUserPage ≤ r.limit ↔ r.limit = mmLastUserPage :=
    ⟨fun h => le_antisymm r.le_last h, Eq.ge⟩
  simp only [trimRange, if_neg hz, if_neg (not_lt.2 hfs), r.limit_eq, hlm, hb]

namespace AddressSpace.Tiled

variable (h : s.Tiled)
include h

theorem userNode {m : AddressNode} (hm : m ∈ s.nodes) : UserNode m :=
  ⟨h.aligned m hm, h.tiles.bounds hm⟩

theorem heapLined : FreeLined s.heap where
  lined := by
    have hme : ∀ m ∈ s.heap, m ∈ s.nodes := fun m hm => mem_append_right _ hm
    refine ⟨fun m hm => h.tiles.nonempty m (hme m hm), ?_⟩
    have hds := (pairwise_append.1 h.tiles.disjoint).2.1
    refine (h.heap.and hds).imp_of_mem fun {a b} ha hb hab => ?_
    have := h.tiles.nonempty a (hme a ha)
    have := h.tiles.nonempty b (hme b hb)
    omega
  user m hm := h.userNode (mem_append_right _ hm)

theorem vadsLined : Lined Vad.startVa Vad.limit s.vads := by
  have hme : ∀ v ∈ s.vads, v.node ∈ s.nodes := fun v hv =>
    mem_append_left _ (mem_map_of_mem hv)
  refine ⟨fun v hv => h.tiles.nonempty v.node (hme v hv), ?_⟩
  have hds := pairwise_map.1 (pairwise_append.1 h.tiles.disjoint).1
  refine (h.vads.and hds).imp_of_mem fun {a b} ha hb hab => ?_
  have h2 := h.tiles.nonempty b.node (hme b hb)
  have h3 : a.node.startVa < b.node.startVa := hab.1
  show a.node.limit ≤ b.node.startVa
  omega

theorem userVads : UserVads s.vads := fun _ hv =>
  h.userNode (mem_append_left _ (mem_map_of_mem hv))

/-- An address is not mapped and free at once. -/
theorem not_both {a : Nat} (ha : Covers AddressNode.startVa AddressNode.limit s.heap a) :
    ¬ Covers Vad.startVa Vad.limit s.vads a := by
  rintro ⟨v, hv, hlo, hh⟩
  obtain ⟨m, hm, hlo', hh'⟩ := ha
  exact (pairwise_append.1 h.tiles.no_common).2.2 v.node (mem_map_of_mem hv) m hm a hlo hh hlo' hh'

/-- The addresses of the user region are those mapped and those free. -/
theorem covers_iff (a : Nat) : Covers Vad.startVa Vad.limit s.vads a ∨
    Covers AddressNode.startVa AddressNode.limit s.heap a ↔
      mmFirstUserPage ≤ a ∧ a < mmLastUserPage := by
  rw [← h.tiles.covers a]
  simp only [AddressSpace.nodes, mem_append, mem_map, or_and_right, exists_or]
  refine or_congr_left ⟨?_, ?_⟩
  · rintro ⟨v, hv, ha⟩
    exact ⟨v.node, ⟨v, hv, rfl⟩, ha⟩
  · rintro ⟨_, ⟨v, hv, rfl⟩, ha⟩
    exact ⟨v, hv, ha⟩

end AddressSpace.Tiled

/-- With memory for its nodes the call succeeds, and both trees are carved. -/
theorem mmOverrideAddressRange_carves {e : Surroundings} (h : s.Tiled)
    (hp : e.pool1 && e.pool2 && e.pool3) :
    ∃ s', mmOverrideAddressRange e s r.startVa r.size
        = some (.success, s', some (trimRange r.startVa r.size)) ∧
      VadsCarved r.startVa r.limit s.vads s'.vads ∧ FreeLined s'.heap ∧
      ∀ a, s'.Free a ↔ s.Free a ∧ ¬ r.Holds a := by
  have hse := r.startVa_lt_limit
  obtain ⟨vads, heap₁, log, hvd, hov⟩ := overrideVads_overridden (t := e.tables) r.aligned
    r.limit_aligned hse r.limit_eq h.vadsLined h.userVads h.heapLined (fun a => h.not_both) []
    s.written
  obtain ⟨heap, hh, hln, hc⟩ := overrideHeap_carves r.aligned r.limit_aligned hse hov.lined
  refine ⟨⟨heap, vads, log⟩, ?_, hov.vads, hln, fun a => ?_⟩
  · rw [mmOverrideAddressRange, if_pos hp, hvd]
    simp only [r.limit_eq, hh, reverse_nil, nil_append]
  · refine (hc a).trans ?_
    refine and_congr_left fun ha => hov.outside a ha

/-- Two carved trees and the range tile the user region again. -/
theorem Overridden.of_carved {s' : AddressSpace} (h : s.Tiled)
    (hvd : VadsCarved r.startVa r.limit s.vads s'.vads) (hp : FreeLined s'.heap)
    (hfr : ∀ a, s'.Free a ↔ s.Free a ∧ ¬ r.Holds a) : Overridden r s s' r.node := by
  have hse := r.startVa_lt_limit
  have hme : ∀ {n}, n ∈ s'.nodes → (∃ v ∈ s'.vads, v.node = n) ∨ n ∈ s'.heap := fun hn =>
    (mem_append.1 hn).imp_left mem_map.1
  have hc : ∀ n ∈ s'.nodes, n.limit ≤ r.startVa ∨ r.limit ≤ n.startVa := by
    intro n hn
    rcases hme hn with ⟨v, hv, rfl⟩ | hn
    · exact hvd.clear hse hv
    · exact clear_of_outside hse (hp.lined.nonempty n hn) fun a hlo hh =>
        ((hfr a).1 ⟨n, hn, hlo, hh⟩).2
  refine ⟨hc, fun va hva p => hvd.shows_outside hva,
    fun va hva => (hfr va).trans (and_iff_left hva), rfl, Tiles.of_covers ?_ ?_ fun a => ?_⟩
  · intro n hn
    rcases mem_cons.1 hn with rfl | hn
    · exact hse
    rcases hme hn with ⟨v, hv, rfl⟩ | hn
    · exact hvd.lined.nonempty v hv
    · exact hp.lined.nonempty n hn
  · refine pairwise_cons.2 ⟨fun n hn a hlo hh hlo' hh' => ?_,
      pairwise_append.2 ⟨pairwise_map.2 ?_, ?_, ?_⟩⟩
    · have hlo : r.startVa ≤ a := hlo
      have hh : a < r.limit := hh
      have := hc n hn
      omega
    · refine hvd.lined.sorted.imp fun {v w} hw a _ hh hlo _ => ?_
      exact absurd (hh.trans_le (LE.le.trans hw hlo)) (lt_irrefl _)
    · refine hp.lined.sorted.imp fun {m n} hmn a _ hh hlo _ => ?_
      omega
    · intro n hn m hm a hlo hh hlo' hh'
      obtain ⟨v, hv, rfl⟩ := mem_map.1 hn
      exact h.not_both ((hfr a).1 ⟨m, hm, hlo', hh'⟩).1 (hvd.covers.1 ⟨v, hv, hlo, hh⟩).1
  · have hal := h.covers_iff a
    have hv : Covers AddressNode.startVa AddressNode.limit (s'.vads.map Vad.node) a ↔
        Covers Vad.startVa Vad.limit s'.vads a := by
      simp [Covers, Vad.startVa, Vad.limit]
    have hr : r.node.startVa ≤ a ∧ a < r.node.limit ↔ r.Holds a := Iff.rfl
    have hin := fun ha : r.Holds a =>
      hal.2 ⟨r.first_le.trans ha.1, ha.2.trans_le r.le_last⟩
    have hfr := hfr a
    simp only [AddressSpace.Free, UserPages.Holds] at hfr hin
    rw [AddressSpace.nodes, covers_cons, covers_append, hv, hvd.covers, hr, ← hal, hfr]
    constructor
    · rintro (ha | ⟨ha, _⟩ | ⟨ha, _⟩)
      · exact hin ha
      · exact .inl ha
      · exact .inr ha
    · intro ha
      by_cases hra : r.startVa ≤ a ∧ a < r.limit
      · exact .inl hra
      · exact .inr (ha.imp (fun h => ⟨h, hra⟩) fun h => ⟨h, hra⟩)

/-- A range that ends with the region comes back a page too short. -/
theorem not_overrideRight_of_last {e : Surroundings} (h : s.Tiled)
    (hp : e.pool1 && e.pool2 && e.pool3) (hls : r.limit = mmLastUserPage) :
    ¬ OverrideRight e s r := by
  obtain ⟨s', hrn, _⟩ := mmOverrideAddressRange_carves (r := r) h hp
  rintro ⟨st, s₁, out, hc, hrg, _⟩
  obtain ⟨rfl, rfl, rfl⟩ : Status.success = st ∧ s' = s₁ ∧
      some (trimRange r.startVa r.size) = out := by simpa using hrn.symm.trans hc
  obtain ⟨node, hnd, hov⟩ := hrg rfl
  have hsize := congrArg AddressNode.size ((Option.some.inj hnd).trans hov.node)
  rw [trimRange_eq, if_pos hls] at hsize
  have := r.size_pos
  simp only [UserPages.node] at hsize
  omega

/-! ## The call is right unless the range ends with the user region -/

/-- Overriding a range of a process whose nodes tile the user region does what it should, or fails and
does nothing, exactly when the range does not end with the region or there is no memory. -/
theorem overrideRight_iff_not_last (e : Surroundings) (s : AddressSpace) (r : UserPages) (h : s.Tiled) :
    OverrideRight e s r ↔ (e.pool1 && e.pool2 && e.pool3 → r.limit ≠ mmLastUserPage) := by
  by_cases hpl : (e.pool1 && e.pool2 && e.pool3) = true
  · rw [forall_prop_of_true hpl]
    refine ⟨fun hrg hls => not_overrideRight_of_last h hpl hls hrg, fun hls => ?_⟩
    obtain ⟨s', hrn, hvd, hh, hfr⟩ := mmOverrideAddressRange_carves (r := r) h hpl
    refine ⟨_, s', _, hrn, fun _ => ⟨r.node, ?_, Overridden.of_carved h hvd hh hfr⟩,
      fun hne => absurd rfl hne⟩
    rw [trimRange_eq, if_neg hls]
    rfl
  · have hfl : mmOverrideAddressRange e s r.startVa r.size = some (.insufficientMemory, s, none) := by
      rw [mmOverrideAddressRange, if_neg hpl]
    exact iff_of_true ⟨.insufficientMemory, s, none, hfl, fun hs => absurd hs (by decide),
      fun _ => ⟨rfl, rfl⟩⟩ fun hp => absurd hp hpl

end

/-- A process with one view of four pages. -/
def viewSpace : AddressSpace where
  heap := [⟨0x1000, 4⟩, ⟨0x9000, 0x7FFFFFFF6⟩]
  vads := [{
    node := ⟨0x5000, 4⟩
    committed := true
    isPrivate := false
    protection := 3
    mappedObject := some 0
    sectionOffset := 0x2000 }]
  written := []

theorem viewSpace_tiled : viewSpace.Tiled where
  vads := pairwise_singleton _ _
  heap := pairwise_pair.2 (by decide)
  aligned := by decide
  tiles := by
    have hpos : AddressNode.startVa ⟨0x1000, 0x7FFFFFFFE⟩
        < AddressNode.limit ⟨0x1000, 0x7FFFFFFFE⟩ := by decide
    have ha : NodesTile mmFirstUserPage mmLastUserPage [⟨0x1000, 0x7FFFFFFFE⟩] := Tiles.single hpos
    have hw := ha.cut (l := ⟨0x1000, 4⟩) (r := ⟨0x5000, 0x7FFFFFFFA⟩) rfl rfl rfl (by decide)
      (by decide)
    have hvw := (hw.perm (.swap _ _ _)).cut (l := ⟨0x5000, 4⟩) (r := ⟨0x9000, 0x7FFFFFFF6⟩) rfl
      rfl rfl (by decide) (by decide)
    exact hvw.perm (.cons _ (.swap _ _ _))

/-- The middle of the view. -/
theorem overrideRight_view : OverrideRight calmSurroundings viewSpace
    ⟨0x6000, 2, by decide, by decide, by decide, by decide⟩ :=
  (overrideRight_iff_not_last calmSurroundings viewSpace _ viewSpace_tiled).2 fun _ => by decide

/-- The last page of the user region. -/
theorem last_page_not_overridden : ¬ OverrideRight calmSurroundings viewSpace
    ⟨0x7FFFFFFFE000, 1, by decide, by decide, by decide, by decide⟩ :=
  not_overrideRight_of_last viewSpace_tiled rfl rfl

end Boron.Mm
