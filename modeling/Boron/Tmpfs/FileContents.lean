import Boron.Tmpfs.File
import Mathlib.Data.List.GetD
import Mathlib.Data.List.Nodup
import Mathlib.Data.List.Perm.Basic

/-! # Files of the temporary file system keep their contents

A file is an array of bytes as long as what is cut off from it is zero already: neither the frames
that stay in the list nor the initial data are cleared. Frames are freed rightly as long as no absent
page is cut off. `file_safe_of_calm` says that everything holds in runs without such steps, without
lengths that wrap around, and with frames in the first 4 GiB. -/

namespace Boron.Tmpfs

open Function List Option

namespace File

variable {s s' : File}

/-! ## Lists of pages -/

variable {n : Nat}

theorem lengthPages_of_le (h : n + pageSize ≤ wordSize) :
    lengthPages n = (n + (pageSize - 1)) / pageSize := by
  rw [lengthPages, addW_of_lt]
  unfold pageSize at *
  omega

theorem le_lengthPages_mul (h : n + pageSize ≤ wordSize) : n ≤ lengthPages n * pageSize := by
  rw [lengthPages_of_le h]
  unfold pageSize
  omega

variable {i : Nat}

theorem le_of_lengthPages_le (h : n + pageSize ≤ wordSize) (hi : lengthPages n ≤ i / pageSize) : n ≤ i := by
  rw [lengthPages_of_le h] at hi
  unfold pageSize at *
  omega

theorem lengthPages_eq_zero (h : n + pageSize ≤ wordSize) (hz : lengthPages n = 0) : n = 0 := by
  have hle := le_lengthPages_mul h
  rw [hz, Nat.zero_mul] at hle
  exact Nat.le_zero.1 hle

/-- The new list is long enough. -/
theorem le_growCount {pages fuel count : Nat} (hpages : pages * 3 < wordSize)
    (hfl : pages ≤ count + fuel) : pages ≤ growCount pages fuel count := by
  induction fuel generalizing count with
  | zero => exact hfl
  | succ fuel ih =>
    unfold growCount
    split
    · next hlt =>
        generalize hn : (if count < 2 then 2 else count) = n
        have hb : 2 ≤ n ∧ count ≤ n ∧ (n ≤ count ∨ n = 2) := by
          split at hn <;> omega
        simp only
        split
        · exact Nat.le_refl _
        · by_cases hw : n * 3 < wordSize
          · rw [mulW_of_lt hw]
            exact ih (by omega)
          · unfold wordSize at *
            omega
    · next hge => exact Nat.le_of_not_lt hge

theorem lengthPages_mul_lt (h : n + pageSize ≤ wordSize) : lengthPages n * 3 < wordSize := by
  rw [lengthPages_of_le h]
  unfold pageSize wordSize at *
  omega

/-! ## Frees -/

theorem foldl_mmFreePhysicalPage (xs rest : List Nat) (s : File) (h : s.owned.Perm (xs ++ rest)) :
    ∃ owned, xs.foldl mmFreePhysicalPage s = { s with owned } ∧ owned.Perm rest := by
  induction xs generalizing s with
  | nil => exact ⟨s.owned, rfl, h⟩
  | cons x xs ih =>
    have hx : x ∈ s.owned := h.mem_iff.2 mem_cons_self
    have hfr : s.mmFreePhysicalPage x = { s with owned := s.owned.erase x } := if_pos hx
    have hrs : (s.owned.erase x).Perm (xs ++ rest) := by
      have he := h.erase x
      rwa [cons_append, erase_cons_head] at he
    rw [foldl_cons, hfr]
    exact ih _ hrs

/-! ## The invariant -/

/-- The pages whose entries a resize takes off the list. -/
def Cuts (s : File) (memory : Bool) (newLength page : Nat) : Prop :=
  page < s.pageList.length ∧ lengthPages newLength ≤ page ∧
    (lengthPages newLength = 0 ∨ lengthPages newLength * 3 < s.pageList.length ∧ memory = true)

/-- A resize does not wrap around and does not empty an empty file, what it cuts off is zero, and the
entries it takes off the list are there and will not be filled from the initial data again. Frames lie
in the first 4 GiB. -/
def Calm (s : File) : Action → Prop
  | .resize lock memory newLength => lock = true →
    newLength + pageSize ≤ wordSize ∧ (newLength = 0 → s.pageList ≠ []) ∧
    (∀ i, newLength ≤ i → i < s.fileLength → s.byteAt i = 0) ∧
    ∀ page, s.Cuts memory newLength page → s.pageList.getD page 0 ≠ 0 ∧
      ∀ i, i / pageSize = page → s.initial.getD i 0 = 0
  | .backing _ _ pfn _ => ∀ p ∈ pfn, p ≠ 0 ∧ p < 2 ^ 20
  | .store _ _ => True

structure Inv (s : File) : Prop where
  crashed : s.crashed = false
  badFree : s.badFree = false
  contents : ∀ i, s.byteAt i = s.bytes i
  beyond : ∀ i, s.fileLength ≤ i → s.bytes i = 0
  fits : s.fileLength + pageSize ≤ wordSize
  covers : s.pageList ≠ [] → s.fileLength ≤ s.pageList.length * pageSize
  small : ∀ p ∈ s.pageList, p < 2 ^ 20
  owned : s.owned.Perm s.named
  once : s.named.Nodup
  addresses : ∀ x ∈ s.addresses, x.2 = x.1 * pageSize

theorem inv_start {ini : List Io.Byte} (h : ini.length + pageSize ≤ wordSize) : (start ini).Inv where
  crashed := rfl
  badFree := rfl
  contents _ := rfl
  beyond _ hi := getD_eq_default _ _ hi
  fits := h
  covers hne := (hne rfl).elim
  small := nofun
  owned := List.Perm.refl _
  once := nodup_nil
  addresses := nofun

/-! ## Resizing -/

theorem byteAt_congr (hls : ∀ k, s'.pageList.getD k 0 = s.pageList.getD k 0)
    (hfr : s'.frame = s.frame) (hin : s'.initial = s.initial) (i : Nat) :
    s'.byteAt i = s.byteAt i := by
  rw [byteAt, byteAt, hls, hfr, hin]

theorem byteAt_of_absent (h : s.pageList.getD (i / pageSize) 0 = 0) : s.byteAt i = s.initial.getD i 0 :=
  if_neg (not_not.2 h)

theorem getD_append_replicate (l : List Nat) (n k : Nat) :
    (l ++ List.replicate n 0).getD k 0 = l.getD k 0 := by
  by_cases hk : k < l.length
  · rw [getD_append _ _ _ _ hk]
  · rw [getD_append_right _ _ _ _ (by omega), getD_eq_default l _ (by omega)]
    by_cases hn : k - l.length < n
    · rw [getD_replicate _ hn]
    · rw [getD_eq_default _ _ (by rw [length_replicate]; omega)]

theorem getD_take (l : List Nat) (n k : Nat) :
    (l.take n).getD k 0 = if k < n then l.getD k 0 else 0 := by
  rw [getD_eq_getElem?_getD, List.getElem?_take]
  split
  · rw [getD_eq_getElem?_getD]
  · rfl

variable {l : List Nat} {k : Nat}

theorem mem_of_getD_ne (h : l.getD k 0 ≠ 0) : l.getD k 0 ∈ l := by
  by_cases hk : k < l.length
  · rw [getD_eq_getElem _ _ hk]
    exact getElem_mem hk
  · exact (h (getD_eq_default _ _ (by omega))).elim

variable {newLength : Nat}

/-- Where what is cut off is zero, nothing changes. -/
theorem bytes_setLength (h : s.Inv)
    (hz : ∀ i, newLength ≤ i → i < s.fileLength → s.byteAt i = 0) (i : Nat) :
    (s.setLength newLength).bytes i = s.bytes i := by
  simp only [setLength]
  split
  · rfl
  · next hnt =>
      by_cases hi : s.fileLength ≤ i
      · exact (h.beyond i hi).symm
      · rw [← h.contents, hz i (by omega) (by omega)]

/-- The part of the invariant that is the same for all ways to resize. -/
theorem Inv.resized (h : s.Inv) (hft : newLength + pageSize ≤ wordSize)
    (hz : ∀ i, newLength ≤ i → i < s.fileLength → s.byteAt i = 0)
    (hcr : s'.crashed = s.crashed) (hbd : s'.badFree = s.badFree)
    (hlength : s'.fileLength = newLength) (hb : s'.bytes = (s.setLength newLength).bytes)
    (ha : s'.addresses = s.addresses) (hc : ∀ i, s'.byteAt i = s.byteAt i)
    (hcv : s'.pageList ≠ [] → newLength ≤ s'.pageList.length * pageSize)
    (hsm : ∀ p ∈ s'.pageList, p < 2 ^ 20) (hw : s'.owned.Perm s'.named)
    (hon : s'.named.Nodup) : s'.Inv where
  crashed := hcr.trans h.crashed
  badFree := hbd.trans h.badFree
  contents i := by rw [hc, h.contents, hb, bytes_setLength h hz]
  beyond i hi := by
    rw [hlength] at hi
    rw [hb]
    exact if_neg fun hin => Nat.not_lt.2 hi hin.2
  fits := hlength ▸ hft
  covers hne := hlength ▸ hcv hne
  small := hsm
  owned := hw
  once := hon
  addresses := ha ▸ h.addresses

variable {memory : Bool}

/-- A page that is taken off the list is zero, and so is what would be filled in again. -/
theorem byteAt_of_cut (h : s.Inv) (hft : newLength + pageSize ≤ wordSize)
    (hz : ∀ i, newLength ≤ i → i < s.fileLength → s.byteAt i = 0)
    (hc : ∀ page, s.Cuts memory newLength page → s.pageList.getD page 0 ≠ 0 ∧
      ∀ i, i / pageSize = page → s.initial.getD i 0 = 0)
    (hh : lengthPages newLength = 0 ∨ lengthPages newLength * 3 < s.pageList.length ∧ memory = true)
    (hp : lengthPages newLength ≤ i / pageSize) : s.initial.getD i 0 = s.byteAt i := by
  by_cases hin : i / pageSize < s.pageList.length
  · rw [(hc _ ⟨hin, hp, hh⟩).2 i rfl]
    have hle := le_of_lengthPages_le hft hp
    by_cases hlength : s.fileLength ≤ i
    · rw [h.contents, h.beyond i hlength]
    · rw [hz i hle (by omega)]
  · exact (byteAt_of_absent (getD_eq_default s.pageList 0 (by omega))).symm

/-- The frames of a list whose last part is not absent. -/
theorem filter_take_drop (h : ∀ k, n ≤ k → k < l.length → l.getD k 0 ≠ 0) :
    l.filter (· ≠ 0) = (l.take n).filter (· ≠ 0) ++ l.drop n := by
  have hdrop : (l.drop n).filter (· ≠ 0) = l.drop n := by
    refine filter_eq_self.2 fun p hp => decide_eq_true ?_
    obtain ⟨j, hj, hgt⟩ := mem_iff_getElem.1 hp
    rw [length_drop] at hj
    rw [getElem_drop] at hgt
    have hne := h (n + j) (by omega) (by omega)
    rwa [getD_eq_getElem _ _ (by omega), hgt] at hne
  rw [← hdrop, ← filter_append, take_append_drop]

theorem Inv.resize (h : s.Inv) {lock : Bool} (hcl : s.Calm (.resize lock memory newLength)) :
    (s.tmpResize lock memory newLength).1.Inv := by
  unfold tmpResize
  split
  · exact h
  · next hlc =>
      obtain ⟨hft, he, hz, hc⟩ := hcl (by simpa using hlc)
      have hpages := le_lengthPages_mul hft
      split
      · next hgr =>
          simp only
          split
          · exact h
          · -- The list gets longer by absent pages.
            generalize hcount : growCount (lengthPages newLength) (lengthPages newLength)
              s.pageList.length = count
            have hge : lengthPages newLength ≤ count := by
              rw [← hcount]
              exact le_growCount (lengthPages_mul_lt hft) (by omega)
            have hnm : (s.pageList ++ List.replicate (count - s.pageList.length) 0).filter (· ≠ 0)
                = s.named := by
              rw [filter_append, filter_replicate_of_neg (by decide), append_nil, named]
            refine h.resized hft hz rfl rfl rfl rfl rfl
              (byteAt_congr (getD_append_replicate _ _) rfl rfl) ?_ ?_ ?_ ?_
            · intro _
              rw [length_append, length_replicate]
              refine hpages.trans (Nat.mul_le_mul_right _ ?_)
              omega
            · intro p hp
              rcases mem_append.1 hp with hp | hp
              · exact h.small p hp
              · rw [eq_of_mem_replicate hp]
                decide
            · rw [named, hnm]
              exact h.owned
            · rw [named, hnm]
              exact h.once
      · split
        · next hpg =>
            -- The whole list is freed.
            have hnil := he (lengthPages_eq_zero hft hpg)
            have hal (k : Nat) (_ : 0 ≤ k) (hk : k < s.pageList.length) : s.pageList.getD k 0 ≠ 0 :=
              (hc k ⟨hk, by omega, .inl hpg⟩).1
            have hw : (s.setLength newLength).owned.Perm (s.pageList ++ []) := by
              have hnm := h.owned
              rw [named, filter_take_drop hal] at hnm
              rwa [append_nil]
            obtain ⟨owned, hfl, hpr⟩ := foldl_mmFreePhysicalPage s.pageList [] _ hw
            simp only [if_neg hnil, hfl]
            refine h.resized hft hz rfl rfl rfl rfl rfl (fun i => ?_) (fun hne => (hne rfl).elim)
              nofun hpr nodup_nil
            have ha : File.byteAt { s.setLength newLength with owned, pageList := [] } i
                = s.initial.getD i 0 := byteAt_of_absent rfl
            exact ha.trans (byteAt_of_cut h hft hz hc (.inl hpg) (hpg ▸ Nat.zero_le _))
        · split
          · next hct =>
              -- The end of the list is freed.
              have hal (k : Nat) (hk : lengthPages newLength ≤ k) (hlt : k < s.pageList.length) :
                  s.pageList.getD k 0 ≠ 0 :=
                (hc k ⟨hlt, hk, .inr hct⟩).1
              have hnm := h.owned
              have hon := h.once
              rw [named, filter_take_drop hal] at hnm hon
              obtain ⟨owned, hfl, hpr⟩ := foldl_mmFreePhysicalPage
                (s.pageList.drop (lengthPages newLength)) _ (s.setLength newLength)
                (hnm.trans perm_append_comm)
              simp only [hfl]
              refine h.resized hft hz rfl rfl rfl rfl rfl (fun i => ?_) (fun _ => ?_)
                (fun p hp => h.small p (mem_of_mem_take hp)) hpr (nodup_append.1 hon).1
              · by_cases hi : i / pageSize < lengthPages newLength
                · simp only [byteAt, getD_take, if_pos hi]
                  rfl
                · have ha : File.byteAt { s.setLength newLength with
                      owned, pageList := s.pageList.take (lengthPages newLength) } i
                      = s.initial.getD i 0 := by
                    refine byteAt_of_absent ?_
                    rw [getD_take, if_neg hi]
                  exact ha.trans (byteAt_of_cut h hft hz hc (.inr hct) (by omega))
              · rw [length_take, Nat.min_eq_left (by omega)]
                exact hpages
          · refine h.resized hft hz rfl rfl rfl rfl rfl (fun _ => rfl) (fun _ => ?_) h.small
              h.owned h.once
            exact hpages.trans (Nat.mul_le_mul_right _ (by simp only [setLength]; omega))

/-! ## Pages -/

variable {j : Nat}

theorem fillPage_eq (ini : List Io.Byte) {page : Nat} (hj : j < pageSize) :
    fillPage ini page j = ini.getD (page * pageSize + j) 0 := by
  unfold fillPage
  split
  · next hlt =>
      generalize hn : (if pageSize > ini.length - page * pageSize then
        ini.length - page * pageSize else pageSize) = n
      simp only
      split
      · rfl
      · next hge =>
          refine (getD_eq_default _ _ ?_).symm
          split at hn <;> omega
  · exact (getD_eq_default _ _ (by omega)).symm

variable {p : Nat}

theorem getD_set_self (hk : k < l.length) : (l.set k p).getD k 0 = p := by
  rw [getD_eq_getElem _ _ (by rwa [length_set]), getElem_set_self]

theorem getD_set_of_ne (hne : j ≠ k) : (l.set k p).getD j 0 = l.getD j 0 := by
  rw [getD_eq_getElem?_getD, List.getElem?_set_ne hne.symm, getD_eq_getElem?_getD]

/-- The frames that are named once an absent page has got one. -/
theorem filter_set_perm (hk : k < l.length) (ha : l.getD k 0 = 0)
    (hp : p ≠ 0) : ((l.set k p).filter (· ≠ 0)).Perm (p :: l.filter (· ≠ 0)) := by
  rw [getD_eq_getElem _ _ hk] at ha
  have hst : l.set k p = _ := set_eq_take_append_cons_drop
  have hsp : l = l.take k ++ l[k] :: l.drop (k + 1) := by
    rw [getElem_cons_drop, take_append_drop]
  rw [if_pos hk] at hst
  rw [hst]
  conv_rhs => rw [hsp]
  rw [ha]
  simp only [filter_append, filter_cons, decide_eq_true hp, ne_eq, not_true, decide_false,
    if_true, Bool.false_eq_true, if_false]
  exact perm_middle

theorem Inv.assign (h : s.Inv) {page pfn : Nat} (hpg : page < s.pageList.length)
    (ha : s.pageList.getD page 0 = 0) (hne : pfn ≠ 0) (hsm : pfn < 2 ^ 20)
    (hfr : pfn ∉ s.owned) : (s.assign page pfn).Inv := by
  have hpr := filter_set_perm hpg ha hne
  have hnt : pfn ∉ s.named := fun hme => hfr (h.owned.mem_iff.2 hme)
  refine ⟨h.crashed, h.badFree, fun i => ?_, h.beyond, h.fits, fun _ => ?_, fun p hp => ?_,
    (h.owned.cons pfn).trans hpr.symm, hpr.nodup_iff.2 (nodup_cons.2 ⟨hnt, h.once⟩),
    h.addresses⟩
  · refine Eq.trans ?_ (h.contents i)
    by_cases hi : i / pageSize = page
    · subst hi
      have hmd : i % pageSize < pageSize := Nat.mod_lt _ (by decide)
      rw [byteAt_of_absent ha]
      simp only [byteAt, File.assign, getD_set_self hpg, if_pos hne, update_self,
        fillPage_eq _ hmd, Nat.div_add_mod']
    · simp only [byteAt, File.assign, getD_set_of_ne hi]
      split
      · next hps =>
          have hother : s.pageList.getD (i / pageSize) 0 ≠ pfn := by
            rintro heq
            refine hnt (mem_filter.2 ⟨?_, decide_eq_true hne⟩)
            rw [← heq]
            exact mem_of_getD_ne hps
          rw [update_of_ne hother]
      · rfl
  · simp only [File.assign, length_set]
    exact h.covers (ne_nil_of_length_pos (by omega))
  · rcases mem_or_eq_of_mem_set hp with hp | rfl
    · exact h.small p hp
    · exact hsm

theorem Inv.handOut (h : s.Inv) (page : Nat) : (s.handOut page).1.Inv := by
  refine ⟨h.crashed, h.badFree, h.contents, h.beyond, h.fits, h.covers, h.small, h.owned, h.once,
    fun x hx => ?_⟩
  rcases mem_cons.1 hx with rfl | hx
  · have hlt : s.pageList.getD page 0 < 2 ^ 20 := by
      by_cases hz : s.pageList.getD page 0 = 0
      · rw [hz]
        decide
      · exact h.small _ (mem_of_getD_ne hz)
    refine Nat.mod_eq_of_lt ?_
    unfold pageSize
    omega
  · exact h.addresses x hx

theorem Inv.ensureList (h : s.Inv) (hnil : s.pageList.length = 0) (hlength : s.fileLength ≠ 0)
    (memory : Bool) : (s.tmpResize true memory s.fileLength).1.Inv ∧
      ((s.tmpResize true memory s.fileLength).2 = .success →
        (s.tmpResize true memory s.fileLength).1.pageList ≠ []) ∧
      (s.tmpResize true memory s.fileLength).1.owned = s.owned ∧
      (s.tmpResize true memory s.fileLength).1.fileLength = s.fileLength := by
  have hpages : 0 < lengthPages s.fileLength := by
    refine Nat.pos_of_ne_zero fun hz => hlength (lengthPages_eq_zero h.fits hz)
  refine ⟨h.resize fun _ => ⟨h.fits, fun hz => (hlength hz).elim, fun i hi hlt => ?_,
    fun page hc => ?_⟩, ?_⟩
  · omega
  · exact (Nat.not_lt_zero _ (hnil ▸ hc.1)).elim
  · unfold tmpResize
    rw [if_neg (by decide), if_pos (by omega)]
    simp only
    split
    · exact ⟨nofun, rfl, rfl⟩
    · refine ⟨fun _ he => ?_, rfl, rfl⟩
      have hge := @le_growCount _ _ s.pageList.length (lengthPages_mul_lt h.fits)
        (Nat.le_add_left (lengthPages s.fileLength) _)
      have hln := congrArg List.length he
      rw [length_append, length_replicate, length_nil] at hln
      omega

variable {offset : Nat}

/-- The rest of `TmpBackingMemory`, once there is a list. -/
theorem Inv.page (h : s.Inv) {pfn : Option Nat} (hls : s.pageList ≠ [])
    (hof : offset < s.fileLength) (hfr : ∀ p ∈ pfn, p ∉ s.owned)
    (hc : ∀ p ∈ pfn, p ≠ 0 ∧ p < 2 ^ 20) :
    (if s.pageList.length ≤ offset / pageSize then
        ({ s with crashed := true }, Except.error BStatus.success)
      else if s.pageList.getD (offset / pageSize) 0 = 0 then
        match pfn with
        | none => (s, .error .insufficientMemory)
        | some pfn => (s.assign (offset / pageSize) pfn).handOut (offset / pageSize)
      else s.handOut (offset / pageSize)).1.Inv := by
  have hcv := h.covers hls
  have hin : offset / pageSize < s.pageList.length :=
    Nat.div_lt_of_lt_mul (by rw [Nat.mul_comm]; omega)
  rw [if_neg (by omega)]
  split
  · next ha =>
      cases pfn with
      | none => exact h
      | some p =>
        obtain ⟨hne, hsm⟩ := hc p rfl
        exact (h.assign hin ha hne hsm (hfr p rfl)).handOut _
  · exact h.handOut _

theorem Inv.backing (h : s.Inv) {lock : Bool} {pfn : Option Nat}
    (hfr : ∀ p ∈ pfn, p ∉ s.owned) (hc : ∀ p ∈ pfn, p ≠ 0 ∧ p < 2 ^ 20) :
    (s.tmpBackingMemory lock memory pfn offset).1.Inv := by
  unfold tmpBackingMemory
  split
  · exact h
  · next hof =>
      split
      · exact h
      · by_cases hnil : s.pageList.length = 0 ∧ s.fileLength ≠ 0
        · obtain ⟨hin, hls, hw, hlength⟩ := h.ensureList hnil.1 hnil.2 memory
          simp only [if_pos hnil]
          split
          · exact hin
          · next hst =>
              rw [not_not] at hst
              rw [hst]
              exact hin.page (hls hst) (by omega) (by rwa [hw]) hc
        · simp only [if_neg hnil]
          refine h.page ?_ (by omega) hfr hc
          exact ne_nil_of_length_pos (by omega)

/-- Two pages do not share a frame. -/
theorem eq_of_getD_eq (h : (l.filter (· ≠ 0)).Nodup)
    (hj : l.getD j 0 ≠ 0) (heq : l.getD j 0 = l.getD k 0) : j = k := by
  have hp := pairwise_iff_getElem.1 (pairwise_filter.1 h)
  have hlt (i : Nat) (hi : l.getD i 0 ≠ 0) : i < l.length := by
    by_contra hge
    exact hi (getD_eq_default _ _ (by omega))
  have hk : l.getD k 0 ≠ 0 := heq ▸ hj
  have hjl := hlt j hj
  have hkl := hlt k hk
  rw [getD_eq_getElem _ _ hjl] at hj heq
  rw [getD_eq_getElem _ _ hkl] at hk heq
  rcases Nat.lt_trichotomy j k with hlt | heq' | hgt
  · exact (hp j k hjl hkl hlt (decide_eq_true hj) (decide_eq_true hk) heq).elim
  · exact heq'
  · exact (hp k j hkl hjl hgt (decide_eq_true hk) (decide_eq_true hj) heq.symm).elim

theorem Inv.store (h : s.Inv) (value : Io.Byte) (hof : offset < s.fileLength)
    (hp : s.pageList.getD (offset / pageSize) 0 ≠ 0) : (s.store offset value).Inv := by
  refine ⟨h.crashed, h.badFree, fun i => ?_, fun i hi => ?_, h.fits, h.covers, h.small, h.owned,
    h.once, h.addresses⟩
  · have hold := h.contents i
    by_cases hi : i = offset
    · subst hi
      simp only [byteAt, File.store, if_pos hp, update_self]
    · simp only [byteAt, File.store, update_of_ne hi] at hold ⊢
      rw [← hold]
      by_cases hi' : s.pageList.getD (i / pageSize) 0 ≠ 0
      · simp only [hi', ne_eq, not_false_eq_true, ↓reduceIte]
        by_cases hpg : i / pageSize = offset / pageSize
        · have hmd : i % pageSize ≠ offset % pageSize := by
            intro hmd
            have hq := Nat.div_add_mod i pageSize
            rw [hpg, hmd, Nat.div_add_mod] at hq
            exact hi hq.symm
          rw [hpg, update_self, update_of_ne hmd]
        · rw [update_of_ne fun heq => hpg (eq_of_getD_eq h.once hi' heq)]
      · simp only [hi', ↓reduceIte]
  · have hne : i ≠ offset := by
      rintro rfl
      exact (Nat.lt_irrefl _ (Nat.lt_of_lt_of_le hof hi)).elim
    simp only [File.store, update_of_ne hne]
    exact h.beyond i hi

/-! ## Runs -/

theorem Inv.step (h : s.Inv) {a : Action} (hcl : s.Calm a) (hs : s.step a = some s') : s'.Inv := by
  unfold File.step at hs
  simp only [h.crashed, Bool.false_eq_true, ↓reduceIte] at hs
  cases a with
  | resize lock memory newLength =>
    simp only at hs
    split at hs
    · cases hs
      exact h.resize hcl
    · cases hs
  | backing lock memory pfn offset =>
    simp only at hs
    split at hs
    · next hc =>
        cases hs
        exact h.backing hc.2 hcl
    · cases hs
  | store offset value =>
    simp only at hs
    split at hs
    · next hc =>
        cases hs
        exact h.store value hc.1 hc.2
    · cases hs

theorem tmpResize_failed (lock memory : Bool) (newLength : Nat)
    (hfl : (s.tmpResize lock memory newLength).2 ≠ .success) :
    (s.tmpResize lock memory newLength).1 = s := by
  unfold tmpResize at hfl ⊢
  split
  · rfl
  · next hc =>
      rw [if_neg hc] at hfl
      split
      · next hgr =>
          rw [if_pos hgr] at hfl
          simp only at hfl ⊢
          split
          · rfl
          · next hmr =>
              rw [if_neg hmr] at hfl
              exact (hfl rfl).elim
      · next hgr =>
          rw [if_neg hgr] at hfl
          refine (hfl ?_).elim
          split
          · simp only
            split <;> rfl
          · split <;> rfl

theorem Inv.safe (h : s.Inv) : s.Safe where
  crashed := h.crashed
  contents i _ := h.contents i
  addresses := h.addresses
  frees := h.badFree
  owned := h.owned
  once := h.once
  covers := h.covers
  failing lock memory newLength hfl := by
    rw [tmpResize_failed lock memory newLength hfl]
    exact ⟨rfl, fun _ => rfl⟩

/-- **Files are arrays of bytes**, in runs that only cut off what is zero, and take only pages off the
list that have a frame. -/
theorem file_safe_of_calm {initial : List Io.Byte} (hfits : initial.length + pageSize ≤ wordSize)
    (h : Reaches step Calm (start initial) s) : s.Safe :=
  (h.invariant (I := Inv) (inv_start hfits) fun _ _ _ ht hc hst => ht.step hc hst).safe

theorem step_resize (hc : s.crashed = false) (hlt : newLength < wordSize)
    (lock memory : Bool) : s.step (.resize lock memory newLength)
      = some (s.tmpResize lock memory newLength).1 := by
  simp only [File.step, hc, Bool.false_eq_true, hlt, ↓reduceIte]

theorem file_safe_of_calm_grow : ∃ s, Reaches step Calm (start [1]) s ∧ s.fileLength = 5000 ∧
    s.Safe := by
  have hst : (start [1]).step (.resize true true 5000)
      = some ((start [1]).tmpResize true true 5000).1 := step_resize rfl (by decide) _ _
  have hc : (start [1]).Calm (.resize true true 5000) := fun _ =>
    ⟨by decide, nofun, fun i hi hlt => absurd (Nat.lt_of_le_of_lt hi hlt) (by decide),
      fun _ hct => (Nat.not_lt_zero _ hct.1).elim⟩
  have hpages : lengthPages 5000 = 2 := lengthPages_of_le (by decide)
  have hlength : ((start [1]).tmpResize true true 5000).1.fileLength = 5000 := by
    simp [tmpResize, hpages, start, setLength]
  exact ⟨_, .single hc hst, hlength, file_safe_of_calm (by decide) (.single hc hst)⟩

/-- A file without frames, once it has had a list of pages: three absent pages. -/
theorem tmpResize_one (ini : List Io.Byte) : ((start ini).tmpResize true true 1).1
      = { (start ini).setLength 1 with pageList := [0, 0, 0] } := by
  have hpages : lengthPages 1 = 1 := lengthPages_of_le (by decide)
  have hcount : growCount 1 1 0 = 3 := by
    simp [growCount, mulW_of_lt (show 2 * 3 < wordSize by decide)]
  simp [tmpResize, hpages, start, setLength, hcount, List.replicate]

/-- The second of two bytes of initial data is cut off, and is back when the file is extended again.
Frame 0 is freed for a page that was never there. The address of a frame from 4 GiB on is cut off. -/
theorem file_not_safe : (¬ ∀ (initial : List Io.Byte) (s : File), initial.length + pageSize ≤ wordSize →
      Reaches step (fun _ _ => True) (start initial) s → s.Safe) ∧
    (∃ s, Reaches step (fun _ _ => True) (start []) s ∧ s.badFree = true) ∧
    ∃ s, Reaches step (fun _ _ => True) (start []) s ∧ s.addresses = [(1048576, 0)] := by
  have hfs (initial : List Io.Byte) : Reaches step (fun _ _ => True) (start initial)
      { (start initial).setLength 1 with pageList := [0, 0, 0] } := by
    refine .single trivial (a := .resize true true 1) ?_
    rw [← tmpResize_one]
    exact step_resize rfl (by decide) _ _
  have hpages : lengthPages 2 = 1 := lengthPages_of_le (by decide)
  have hz : lengthPages 0 = 0 := lengthPages_of_le (by decide)
  refine ⟨fun ha => ?_, ?_, ?_⟩
  · have hsf := ha [1, 2] _ (by decide)
      (.tail (hfs [1, 2]) trivial (step_resize rfl (show 2 < wordSize by decide) true true))
    have hy := hsf.contents 1 (by simp [tmpResize, hpages, setLength])
    simp [tmpResize, hpages, setLength, byteAt, start, pageSize] at hy
  · refine ⟨_, .tail (hfs []) trivial (step_resize rfl (show 0 < wordSize by decide) true true), ?_⟩
    simp [tmpResize, hz, setLength, start, mmFreePhysicalPage]
  · have hb : File.step { (start []).setLength 1 with pageList := [0, 0, 0] }
        (.backing true true (some 1048576) 0)
        = some (File.tmpBackingMemory { (start []).setLength 1 with pageList := [0, 0, 0] } true true
          (some 1048576) 0).1 := by
      simp [File.step, start, setLength, wordSize]
    refine ⟨_, .tail (hfs []) trivial hb, ?_⟩
    simp [tmpBackingMemory, setLength, start, assign, handOut, pageSize]

end File

end Boron.Tmpfs
