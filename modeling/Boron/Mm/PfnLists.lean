import Boron.Lib.DList
import Boron.Mm.Pfn

/-! # The frame lists

The zero, free, standby and modified lists share one pair of link fields per frame. `Linked db L`
says that the four lists of the database are the disjoint lists `L`; the list primitives of
`mm/pmm.c` are shown to append to, and take out of, the middle of one of them. What they leave alone
is everything but the links (`Pfdbe.unlinked`). -/

namespace Boron.Mm

open Function List

/-- The list `l` of the database consists of the frames `ps`, in this order. -/
def Pfdb.IsList (db : Pfdb) (l : PfnList) (ps : List Pfn) : Prop :=
  IsDList (fun p => (db.frame p).nextFrame) (fun p => (db.frame p).prevFrame) pfnInvalid
    (db.ends l).first (db.ends l).last ps

/-- The four lists of the database are `L`, and no frame is on two of them. -/
structure Linked (db : Pfdb) (L : PfnList → List Pfn) : Prop where
  isList : ∀ l, db.IsList l (L l)
  disjoint : ∀ l m p, p ∈ L l → p ∈ L m → l = m

variable {db db' : Pfdb} {L : PfnList → List Pfn} {l m : PfnList} {p q : Pfn}

/-! ## Effects of the primitives on the frames -/

@[simp] theorem Pfdbe.unlinked_unlinked (e : Pfdbe) : e.unlinked.unlinked = e.unlinked := rfl

/-- Storing links does not change what is left of an entry without them. -/
@[simp] theorem Pfdbe.unlinked_setLinks (e : Pfdbe) (n r : Pfn) :
    Pfdbe.unlinked { e with nextFrame := n, prevFrame := r } = e.unlinked := rfl

/-- A store into an entry that neither changes nor reads its links. -/
structure KeepsLinks (f : Pfdbe → Pfdbe) : Prop where
  next : ∀ e, (f e).nextFrame = e.nextFrame
  prev : ∀ e, (f e).prevFrame = e.prevFrame
  unlinked : ∀ e, (f e).unlinked = (f e.unlinked).unlinked

/-- The fields of an entry other than its links. -/
theorem Pfdbe.fields_of_unlinked {e e' : Pfdbe} (h : e.unlinked = e'.unlinked) :
    e.type = e'.type ∧ e.refCount = e'.refCount ∧ e.prototypePte = e'.prototypePte ∧
      e.modified = e'.modified ∧ e.isInModifiedPageList = e'.isInModifiedPageList := by
  simp only [Pfdbe.unlinked, Pfdbe.mk.injEq] at h
  tauto

variable {f : Pfdbe → Pfdbe}

theorem modify_unlinked (hf : ∀ e, (f e).unlinked = e.unlinked) :
    ((db.modify p f).frame q).unlinked = (db.frame q).unlinked := by
  rw [Pfdb.modify_frame]
  split
  · next he => rw [he, hf]
  · rfl

/-- A store that is skipped for `PFN_INVALID` is a plain store as far as real frames can tell. -/
theorem modify_guarded_frame (r : Pfn) (f : Pfdbe → Pfdbe) (hq : q ≠ pfnInvalid) :
    (if r ≠ pfnInvalid then db.modify r f else db).frame q
      = if q = r then f (db.frame q) else db.frame q := by
  split
  · rw [Pfdb.modify_frame]
    split
    · next he => rw [he]
    · rfl
  · next hin =>
      rw [if_neg]
      rintro rfl
      exact hin hq

/-- Unlinking makes the neighbours of the frame point at each other and touches nothing else. -/
theorem mmpUnlinkPfn_frame (db : Pfdb) (hp : p ≠ pfnInvalid) (hq : q ≠ pfnInvalid) :
    (mmpUnlinkPfn db p).frame q =
      { db.frame q with
        nextFrame :=
          if q = (db.frame p).prevFrame then (db.frame p).nextFrame else (db.frame q).nextFrame
        prevFrame :=
          if q = (db.frame p).nextFrame then (db.frame p).prevFrame
          else (db.frame q).prevFrame } := by
  unfold mmpUnlinkPfn
  simp only [modify_guarded_frame _ _ hq, modify_guarded_frame _ _ hp]
  -- even a frame that follows itself keeps its own links
  have hpr : (if p = (db.frame p).nextFrame then
      { db.frame p with prevFrame := (db.frame p).prevFrame } else db.frame p) = db.frame p := by
    split <;> rfl
  rw [hpr]
  split <;> split <;> rfl

@[simp] theorem mmpUnlinkPfn_ends : (mmpUnlinkPfn db p).ends = db.ends := by
  simp only [mmpUnlinkPfn]
  split_ifs <;> rfl

@[simp] theorem mmpUnlinkPfn_total :
    (mmpUnlinkPfn db p).totalFreePages = db.totalFreePages := by
  simp only [mmpUnlinkPfn]
  split_ifs <;> rfl

@[simp] theorem mmpEnsurePfnIsntEndsOfList_frame :
    (mmpEnsurePfnIsntEndsOfList db l p).frame = db.frame := rfl

@[simp] theorem mmpEnsurePfnIsntEndsOfList_total :
    (mmpEnsurePfnIsntEndsOfList db l p).totalFreePages = db.totalFreePages := rfl

theorem mmpEnsurePfnIsntEndsOfList_ends_of_ne (hm : m ≠ l) :
    (mmpEnsurePfnIsntEndsOfList db l p).ends m = db.ends m := by
  simp only [mmpEnsurePfnIsntEndsOfList, Pfdb.setEnds_ends, if_neg hm]

/-- The ends after the removal of `p`: an end that was `p` moves to the neighbour of `p`. -/
theorem mmpEnsurePfnIsntEndsOfList_ends_self (hpn : p ≠ pfnInvalid)
    (hfs : (db.ends l).first = p ↔ (db.frame p).prevFrame = pfnInvalid)
    (hls : (db.ends l).last = p ↔ (db.frame p).nextFrame = pfnInvalid) :
    (mmpEnsurePfnIsntEndsOfList db l p).ends l =
      ⟨if (db.ends l).first = p then (db.frame p).nextFrame else (db.ends l).first,
        if (db.ends l).last = p then (db.frame p).prevFrame else (db.ends l).last⟩ := by
  rcases he : db.ends l with ⟨f, g⟩
  rw [he] at hfs hls
  simp only [mmpEnsurePfnIsntEndsOfList, Pfdb.setEnds_ends, he, if_true]
  by_cases hf : f = p <;> by_cases hg : g = p
  · simp [hf, hg, hfs.1 hf, hls.1 hg, Ne.symm hpn]
  · have hnext : (db.frame p).nextFrame ≠ pfnInvalid := fun hn => hg (hls.2 hn)
    simp [hf, hg, hnext]
  · have hp : (db.frame p).prevFrame ≠ pfnInvalid := fun hn => hf (hfs.2 hn)
    simp [hf, hg, hp]
  · simp [hf, hg]

theorem mmpEnsurePfnIsntEndsOfList_of_ne (hf : (db.ends l).first ≠ p) (hl : (db.ends l).last ≠ p) :
    mmpEnsurePfnIsntEndsOfList db l p = db := by
  simp only [mmpEnsurePfnIsntEndsOfList, if_neg hf, if_neg hl, Pfdb.setEnds, update_eq_self]

@[simp] theorem mmpRemovePfnFromList_total :
    (mmpRemovePfnFromList db l p).totalFreePages = db.totalFreePages := by
  simp [mmpRemovePfnFromList]

@[simp] theorem mmpRemovePfnFromList_unlinked :
    ((mmpRemovePfnFromList db l p).frame q).unlinked = (db.frame q).unlinked := by
  simp only [mmpRemovePfnFromList, mmpEnsurePfnIsntEndsOfList_frame, mmpUnlinkPfn]
  split_ifs
  · refine (modify_unlinked ?_).trans (modify_unlinked ?_) <;> exact fun _ => rfl
  · exact modify_unlinked fun _ => rfl
  · exact modify_unlinked fun _ => rfl
  · rfl

@[simp] theorem mmpAddPfnToList_total :
    (mmpAddPfnToList db l p).totalFreePages = db.totalFreePages := by
  unfold mmpAddPfnToList
  split_ifs <;> rfl

@[simp] theorem mmpAddPfnToList_unlinked :
    ((mmpAddPfnToList db l p).frame q).unlinked = (db.frame q).unlinked := by
  simp only [mmpAddPfnToList]
  split
  · exact modify_unlinked fun _ => rfl
  · rw [Pfdb.setEnds_frame]
    refine (modify_unlinked ?_).trans (modify_unlinked ?_) <;> exact fun _ => rfl

/-! ## Effects of the primitives on the lists -/

/-- Whatever happens to frames on no list, or to anything but the links of the others, the lists
    stay. -/
theorem Linked.congr (h : Linked db L) (he : db'.ends = db.ends)
    (hln : ∀ l, ∀ q ∈ L l, (db'.frame q).nextFrame = (db.frame q).nextFrame ∧
      (db'.frame q).prevFrame = (db.frame q).prevFrame) : Linked db' L := by
  refine ⟨fun l => ?_, h.disjoint⟩
  have hl := (h.isList l).congr (hln l)
  unfold Pfdb.IsList
  rwa [he]

theorem Linked.modify_of_not_mem (h : Linked db L) (hp : ∀ l, p ∉ L l) (f : Pfdbe → Pfdbe) :
    Linked (db.modify p f) L := by
  refine h.congr rfl fun l q hq => ?_
  have hqp : q ≠ p := fun he => hp l (he ▸ hq)
  rw [Pfdb.modify_frame, if_neg hqp]
  exact ⟨rfl, rfl⟩

theorem Linked.modify_of_links (h : Linked db L) (p : Pfn)
    (hf : KeepsLinks f) : Linked (db.modify p f) L := by
  refine h.congr rfl fun l q _ => ?_
  rw [Pfdb.modify_frame]
  split
  · next he => rw [he]; exact ⟨hf.next _, hf.prev _⟩
  · exact ⟨rfl, rfl⟩

theorem Linked.incFree (h : Linked db L) : Linked db.incFree L :=
  h.congr (Pfdb.incFree_ends db) fun _ _ _ => by simp

theorem Linked.decFree (h : Linked db L) : Linked db.decFree L :=
  h.congr (Pfdb.decFree_ends db) fun _ _ _ => by simp

theorem Linked.ne_invalid (h : Linked db L) (hp : p ∈ L l) : p ≠ pfnInvalid :=
  (h.isList l).ne_nil hp

/-- A frame that is on no list, or on another one, is not an end of the list. -/
theorem Linked.ends_ne (h : Linked db L) (hp : p ∉ L l) (hpn : p ≠ pfnInvalid) :
    (db.ends l).first ≠ p ∧ (db.ends l).last ≠ p := by
  obtain ⟨hf, hl⟩ := (h.isList l).ends_mem
  constructor
  · rintro rfl
    exact hf.elim hpn hp
  · rintro rfl
    exact hl.elim hpn hp

/-- Removal of a frame from wherever it is on its list. -/
theorem Linked.remove (h : Linked db L) (hp : p ∈ L l) :
    Linked (mmpRemovePfnFromList db l p) (update L l ((L l).erase p)) := by
  have hpn := h.ne_invalid hp
  have hl := h.isList l
  obtain ⟨hnm, hpm⟩ := hl.links_mem hp
  have hb : ∀ m, ∀ q ∈ update L l ((L l).erase p) m, q ∈ L m := by
    intro m q hq
    rw [update_apply] at hq
    split at hq
    · next he => exact he ▸ mem_of_mem_erase hq
    · exact hq
  refine ⟨fun m => ?_, fun m k q hm hk => h.disjoint m k q (hb m q hm) (hb k q hk)⟩
  have hfr : ∀ q ∈ L m, (mmpRemovePfnFromList db l p).frame q = _ := fun q hq =>
    mmpUnlinkPfn_frame db hpn (h.ne_invalid hq)
  by_cases hml : m = l
  · subst hml
    obtain ⟨xs, ys, hsp⟩ := append_of_mem hp
    have hpx : p ∉ xs := fun hx => by
      have := hl.nodup
      rw [hsp] at this
      exact (nodup_cons.1 (nodup_middle.1 this)).1 (mem_append_left _ hx)
    have hers : (L m).erase p = xs ++ ys := by
      rw [hsp, erase_append_right _ hpx, erase_cons_head]
    have hme : ∀ q ∈ xs ++ ys, q ∈ L m := by
      intro q hq
      rw [hsp]
      simp only [mem_append, mem_cons] at hq ⊢
      exact hq.imp_right .inr
    rw [update_self, hers]
    have hen : (mmpRemovePfnFromList db m p).ends m =
        ⟨if (db.ends m).first = p then (db.frame p).nextFrame else (db.ends m).first,
          if (db.ends m).last = p then (db.frame p).prevFrame else (db.ends m).last⟩ := by
      have hsl := mmpUnlinkPfn_frame db hpn hpn
      rw [mmpRemovePfnFromList, mmpEnsurePfnIsntEndsOfList_ends_self hpn] <;>
        simp only [hsl, mmpUnlinkPfn_ends, ite_self]
      · exact hl.first_eq_iff hp
      · exact hl.last_eq_iff hp
    unfold Pfdb.IsList at hl ⊢
    rw [hsp] at hl
    rw [hen]
    refine hl.unlink ?_ ?_ <;>
    · intro q hq
      simp only [hfr q (hme q hq)]
  · rw [update_of_ne hml]
    have hen : (mmpRemovePfnFromList db l p).ends m = db.ends m := by
      rw [mmpRemovePfnFromList, mmpEnsurePfnIsntEndsOfList_ends_of_ne hml, mmpUnlinkPfn_ends]
    unfold Pfdb.IsList
    rw [hen]
    refine (h.isList m).congr fun q hq => ?_
    -- the neighbours of the frame are on its own list
    have hq1 : q ≠ (db.frame p).nextFrame := by
      rintro rfl
      exact hnm.elim (h.ne_invalid hq) fun hn => hml (h.disjoint m l _ hq hn)
    have hq2 : q ≠ (db.frame p).prevFrame := by
      rintro rfl
      exact hpm.elim (h.ne_invalid hq) fun hn => hml (h.disjoint m l _ hq hn)
    simp only [hfr q hq, if_neg hq1, if_neg hq2, and_self]

variable {ps : List Pfn}

/-- The links that insertion leaves on the other frames. -/
theorem mmpAddPfnToList_links (hl : db.IsList l ps) (hqn : q ≠ pfnInvalid) (hq : q ≠ p) :
    ((mmpAddPfnToList db l p).frame q).nextFrame
        = (if q = (db.ends l).last then p else (db.frame q).nextFrame) ∧
      ((mmpAddPfnToList db l p).frame q).prevFrame = (db.frame q).prevFrame := by
  unfold mmpAddPfnToList
  split
  · next hem =>
      have hnil := hl.first_eq_nil_iff.1 hem
      have hls : (db.ends l).last = pfnInvalid := by rw [hl.last_eq, hnil]; rfl
      rw [Pfdb.modify_frame, if_neg hq, hls, if_neg hqn]
      exact ⟨rfl, rfl⟩
  · simp only [Pfdb.setEnds_frame, Pfdb.modify_frame, if_neg hq]
    split
    · next he => rw [he]; exact ⟨rfl, rfl⟩
    · exact ⟨rfl, rfl⟩

theorem mmpAddPfnToList_links_self (hl : db.IsList l ps) :
    ((mmpAddPfnToList db l p).frame p).nextFrame = pfnInvalid ∧
      ((mmpAddPfnToList db l p).frame p).prevFrame = (db.ends l).last := by
  unfold mmpAddPfnToList
  split
  · next he =>
      have hnil := hl.first_eq_nil_iff.1 he
      have hls : (db.ends l).last = pfnInvalid := by rw [hl.last_eq, hnil]; rfl
      simp [hls]
  · simp

theorem Linked.add (h : Linked db L) (hp : ∀ m, p ∉ L m) (hpn : p ≠ pfnInvalid) :
    Linked (mmpAddPfnToList db l p) (update L l (L l ++ [p])) := by
  have hl := h.isList l
  have hme : ∀ m q, q ∈ update L l (L l ++ [p]) m ↔ q ∈ L m ∨ m = l ∧ q = p := by
    intro m q
    rw [update_apply]
    split
    · next he => subst he; simp
    · next he => simp [he]
  refine ⟨fun m => ?_, fun m k q hm hk => ?_⟩
  · have hen : (mmpAddPfnToList db l p).ends m = if m = l then
        ⟨if (db.ends l).first = pfnInvalid then p else (db.ends l).first, p⟩ else db.ends m := by
      unfold mmpAddPfnToList
      split_ifs <;> simp_all [Pfdb.setEnds_ends]
    by_cases hml : m = l
    · subst hml
      rw [update_self]
      unfold Pfdb.IsList
      rw [hen, if_pos rfl]
      refine hl.append_singleton (hp m) hpn ?_ ?_ ?_
      · intro q hq
        have hqp : q ≠ p := fun he => hp m (he ▸ hq)
        exact (mmpAddPfnToList_links hl (h.ne_invalid hq) hqp).1
      · intro q hq
        have hqp : q ≠ p := fun he => hp m (he ▸ hq)
        exact (mmpAddPfnToList_links hl (h.ne_invalid hq) hqp).2
      · exact mmpAddPfnToList_links_self hl
    · rw [update_of_ne hml]
      unfold Pfdb.IsList
      rw [hen, if_neg hml]
      refine (h.isList m).congr fun q hq => ?_
      have hql : q ∉ L l := fun hq' => hml (h.disjoint m l q hq hq')
      have hqs : q ≠ (db.ends l).last := fun he => (h.ends_ne hql (h.ne_invalid hq)).2 he.symm
      have hqp : q ≠ p := fun he => hp m (he ▸ hq)
      simpa [hqs] using mmpAddPfnToList_links hl (h.ne_invalid hq) hqp
  · rcases (hme m q).1 hm with hm | ⟨hm, hqp⟩ <;> rcases (hme k q).1 hk with hk | ⟨hk, hqp'⟩
    · exact h.disjoint m k q hm hk
    · exact absurd (hqp' ▸ hm) (hp m)
    · exact absurd (hqp ▸ hk) (hp k)
    · rw [hm, hk]

/-- `MiDetransitionPfn` patches the ends of both lists, and that is removal from the one the frame is
    really on: it can be no end of the other. -/
theorem miDetransitionPfn_eq (h : Linked db L) (hl : l = .standby ∨ l = .modified) (hp : p ∈ L l)
    (hpr : (db.frame p).prototypePte ≠ 0) :
    miDetransitionPfn db p = some ((mmpRemovePfnFromList db l p).modify p fun e =>
      { e with refCount := 1, nextFrame := 0, prevFrame := 0, type := .used }) := by
  have hpn := h.ne_invalid hp
  have hother : ∀ m, m ≠ l → (db.ends m).first ≠ p ∧ (db.ends m).last ≠ p := fun m hm =>
    h.ends_ne (fun hpm => hm (h.disjoint m l p hpm hp)) hpn
  simp only [miDetransitionPfn, if_neg hpn, if_neg hpr, mmpRemovePfnFromList]
  rcases hl with rfl | rfl
  · obtain ⟨hf, hl⟩ := hother .modified (by decide)
    rw [mmpEnsurePfnIsntEndsOfList_of_ne (l := .modified)]
    · rwa [mmpEnsurePfnIsntEndsOfList_ends_of_ne (by decide), mmpUnlinkPfn_ends]
    · rwa [mmpEnsurePfnIsntEndsOfList_ends_of_ne (by decide), mmpUnlinkPfn_ends]
  · obtain ⟨hf, hl⟩ := hother .standby (by decide)
    rw [mmpEnsurePfnIsntEndsOfList_of_ne (l := .standby)] <;> rwa [mmpUnlinkPfn_ends]

end Boron.Mm
