import Boron.Ps.Threads
import Mathlib.Algebra.Order.Group.Multiset
import Mathlib.Tactic.Abel

/-! # The references of thread and process objects

`HeapOk s refs` says that the objects are counted as the references `refs` say; the object routines
add and take away one reference of it (`HeapOk.reference`, `HeapOk.dereference`). The references that
there really are, `refs`, are read off the handles, the running threads and the calls. -/

namespace Boron.Ps

open Function List Option

namespace Threads

variable {O : Type} [DecidableEq O] {s s' : Threads O} {o : O} {M : Multiset O}

/-! ## The references -/

/-- All references: of handles, of running threads and of calls. -/
def refs (s : Threads O) : Multiset O :=
  ↑(s.handles.map Prod.snd) + ↑(s.threadList.map Prod.fst) + ↑(s.threadList.map Prod.snd)
    + ↑(s.calls.flatMap Call.references)

def count (s : Threads O) (o : O) : Option Nat := (s.object o).map Object.pointerCount

omit [DecidableEq O] in
theorem refs_enter (s : Threads O) (call : Call O) :
    (s.enter call).refs = ↑call.references + s.refs := by
  simp only [refs, enter, flatMap_cons, ← Multiset.coe_add]
  abel

theorem refs_leave {call : Call O} (h : call ∈ s.calls) :
    s.refs = ↑call.references + refs { s with calls := s.calls.erase call } := by
  have hp : (s.calls.flatMap Call.references).Perm
      (call.references ++ (s.calls.erase call).flatMap Call.references) := by
    rw [← flatMap_cons]
    exact (perm_cons_erase h).flatMap_right _
  simp only [refs, Multiset.coe_eq_coe.2 hp, ← Multiset.coe_add]
  abel

omit [DecidableEq O] in
theorem refs_insert (s : Threads O) (handle : Handle O) (o : O) :
    refs { s with handles := (handle, o) :: s.handles } = o ::ₘ s.refs := by
  simp only [refs, map_cons, ← Multiset.cons_coe, ← Multiset.singleton_add]
  abel

theorem refs_close {e : Handle O × O} (h : e ∈ s.handles) :
    s.refs = e.2 ::ₘ refs { s with handles := s.handles.erase e } := by
  have hp : (s.handles.map Prod.snd).Perm (e.2 :: (s.handles.erase e).map Prod.snd) := by
    rw [← map_cons]
    exact (perm_cons_erase h).map _
  simp only [refs, Multiset.coe_eq_coe.2 hp, ← Multiset.cons_coe, ← Multiset.singleton_add]
  abel

omit [DecidableEq O] in
theorem refs_thread (s : Threads O) (o p : O) :
    refs { s with threadList := (o, p) :: s.threadList } = o ::ₘ p ::ₘ s.refs := by
  simp only [refs, map_cons, ← Multiset.cons_coe, ← Multiset.singleton_add]
  abel

theorem refs_exit {e : O × O} (h : e ∈ s.threadList) :
    s.refs = e.1 ::ₘ e.2 ::ₘ refs { s with threadList := s.threadList.erase e } := by
  have hfs : (s.threadList.map Prod.fst).Perm (e.1 :: (s.threadList.erase e).map Prod.fst) := by
    rw [← map_cons]
    exact (perm_cons_erase h).map _
  have hsn : (s.threadList.map Prod.snd).Perm (e.2 :: (s.threadList.erase e).map Prod.snd) := by
    rw [← map_cons]
    exact (perm_cons_erase h).map _
  simp only [refs, Multiset.coe_eq_coe.2 hfs, Multiset.coe_eq_coe.2 hsn, ← Multiset.cons_coe,
    ← Multiset.singleton_add]
  abel

/-- Two states with the same references. -/
structure SameHolders (s s' : Threads O) : Prop where
  system : s'.systemProcess = s.systemProcess
  handles : s'.handles = s.handles
  threads : s'.threadList = s.threadList
  calls : s'.calls = s.calls ∨ ∃ p, s'.calls = .killing p :: s.calls

omit [DecidableEq O] in
theorem SameHolders.refs (h : SameHolders s s') : s'.refs = s.refs := by
  have hc : s'.calls.flatMap Call.references = s.calls.flatMap Call.references := by
    obtain hc | ⟨p, hc⟩ := h.calls
    · rw [hc]
    · rw [hc]
      rfl
  simp only [Threads.refs, h.handles, h.threads, hc]

/-! ## The objects -/

/-- The objects are counted as the references say, and the reaper has the ones without any. -/
structure HeapOk (s : Threads O) (M : Multiset O) : Prop where
  counts : Counts s.count M
  reaper : ∀ o x, s.object o = some x →
    (x.pointerCount = 0 ∧ x.permanent = false ↔ o ∈ s.reaperList)
  reaped : ∀ o ∈ s.reaperList, s.object o ≠ none
  nodup : s.reaperList.Nodup

/-- Objects that are there before and after are of the same type and process. -/
def Keeps (s s' : Threads O) : Prop :=
  ∀ o x', s'.object o = some x' → s.object o = none ∨
    ∃ x, s.object o = some x ∧ x'.body.ofThread = x.body.ofThread ∧ x'.body.type = x.body.type ∧
      x'.permanent = x.permanent

omit [DecidableEq O] in
/-- Nothing goes in the first of the two parts. -/
theorem Keeps.trans {s'' : Threads O} (h : Keeps s s') (h' : Keeps s' s'')
    (hst : ∀ o, s'.object o = none → s.object o = none) : Keeps s s'' := by
  intro o x'' hx''
  obtain hnn | ⟨x', hx', hh', hy', hp'⟩ := h' o x'' hx''
  · exact .inl (hst o hnn)
  · obtain hnn | ⟨x, hx, hh, hy, hp⟩ := h o x' hx'
    · exact .inl hnn
    · exact .inr ⟨x, hx, hh'.trans hh, hy'.trans hy, hp'.trans hp⟩

theorem HeapOk.of_eq (h : HeapOk s M) (hb : s'.object = s.object)
    (hp : s'.reaperList = s.reaperList) : HeapOk s' M where
  counts := by
    have hcount : s'.count = s.count := funext fun o => by rw [count, count, hb]
    rw [hcount]
    exact h.counts
  reaper := by
    rw [hb, hp]
    exact h.reaper
  reaped := by
    rw [hb, hp]
    exact h.reaped
  nodup := by
    rw [hp]
    exact h.nodup

theorem count_set (s : Threads O) (o : O) (x : Option (Object O)) :
    (s.set o x).count = update s.count o (x.map Object.pointerCount) := by
  funext p
  by_cases hp : p = o
  · simp [count, set, hp]
  · simp [count, set, update_of_ne hp]

theorem HeapOk.live (h : HeapOk s M) (ho : o ∈ M) :
    ∃ x, s.object o = some x ∧ x.pointerCount ≠ 0 ∧ o ∉ s.reaperList := by
  obtain ⟨n, hn⟩ := h.counts.exists_succ ho
  obtain ⟨x, hx, hcount⟩ := map_eq_some_iff.1 hn
  refine ⟨x, hx, by omega, fun hme => ?_⟩
  have := ((h.reaper o x hx).2 hme).1
  omega

theorem object_set (s : Threads O) (o p : O) (x : Option (Object O)) :
    (s.set o x).object p = if p = o then x else s.object p := by
  by_cases hp : p = o
  · simp [set, hp]
  · simp [set, hp]

variable {x : Object O}

theorem keeps_set {x' : Object O} (hx : s.object o = some x)
    (hh : x'.body.ofThread = x.body.ofThread) (hty : x'.body.type = x.body.type)
    (hpr : x'.permanent = x.permanent) : Keeps s (s.set o (some x')) := by
  intro p y hy
  rw [object_set] at hy
  split at hy
  · next hp =>
      cases hy
      exact .inr ⟨x, hp ▸ hx, hh, hty, hpr⟩
  · exact .inr ⟨y, hy, rfl, rfl, rfl⟩

/-- `ObReferenceObjectByPointer`, on an object that nothing is about to delete. -/
theorem reference_spec (h : HeapOk s M) (hx : s.object o = some x)
    (hlv : x.pointerCount ≠ 0 ∨ x.permanent = true)
    (hs : s.obReferenceObjectByPointer o = some s') :
    s' = s.set o (some { x with pointerCount := x.pointerCount + 1 }) ∧ HeapOk s' (o ::ₘ M) ∧
      Keeps s s' := by
  rw [obReferenceObjectByPointer, hx] at hs
  cases hs
  have hnt : o ∉ s.reaperList := by
    intro hme
    have := (h.reaper o x hx).2 hme
    obtain hcount | hpr := hlv
    · exact hcount this.1
    · simp [hpr] at this
  refine ⟨rfl, ⟨?_, fun p y hy => ?_, fun p hp => ?_, h.nodup⟩, keeps_set hx rfl rfl rfl⟩
  · rw [count_set]
    exact h.counts.reference (by rw [count, hx]; rfl)
  · rw [object_set] at hy
    split at hy
    · next hp =>
        cases hy
        exact ⟨fun hz => absurd hz.1 (Nat.succ_ne_zero _), fun hme => absurd (hp ▸ hme) hnt⟩
    · exact h.reaper p y hy
  · rw [object_set]
    split
    · exact nofun
    · exact h.reaped p hp

theorem object_obpDeleteObject (s : Threads O) (o p : O) (x : Object O) :
    (s.obpDeleteObject o x).object p = if p = o then none else s.object p := by
  rw [obpDeleteObject]
  split
  · exact object_set s o p none
  · exact object_set s o p none

theorem sameHolders_obpDeleteObject (s : Threads O) (o : O) (x : Object O) :
    SameHolders s (s.obpDeleteObject o x) := by
  rw [obpDeleteObject]
  split
  · exact ⟨rfl, rfl, rfl, .inr ⟨o, rfl⟩⟩
  · exact ⟨rfl, rfl, rfl, .inl rfl⟩

theorem reaperList_obpDeleteObject (s : Threads O) (o : O) (x : Object O) :
    (s.obpDeleteObject o x).reaperList = s.reaperList := by
  rw [obpDeleteObject]
  split
  · rfl
  · rfl

theorem HeapOk.delete (h : HeapOk s M) (ho : o ∉ M) (hnt : o ∉ s'.reaperList)
    (hb : ∀ p, s'.object p = if p = o then none else s.object p)
    (hrp : ∀ p ≠ o, p ∈ s'.reaperList ↔ p ∈ s.reaperList) (hnd : s'.reaperList.Nodup) :
    HeapOk s' M where
  counts := by
    have hcount : s'.count = update s.count o none := by
      funext p
      rw [count, hb]
      by_cases hp : p = o
      · rw [if_pos hp, hp, update_self]
        rfl
      · rw [if_neg hp, update_of_ne hp]
        rfl
    rw [hcount]
    exact h.counts.delete ho
  reaper := fun p x hx => by
    rw [hb] at hx
    split at hx
    · cases hx
    · next hp => exact (h.reaper p x hx).trans (hrp p hp).symm
  reaped := fun p hp => by
    have hne : p ≠ o := fun heq => hnt (heq ▸ hp)
    rw [hb, if_neg hne]
    exact h.reaped p ((hrp p hne).1 hp)
  nodup := hnd

/-- What `ObDereferenceObject` leaves of the object. -/
def dropped (highIpl : Bool) (x : Object O) : Option (Object O) :=
  if x.pointerCount = 1 ∧ x.permanent = false ∧ highIpl = false then none
  else some { x with pointerCount := x.pointerCount - 1 }

/-- One reference of the object less; if it was the last, the reaper gets the object. -/
theorem HeapOk.set_pred (h : HeapOk s (o ::ₘ M)) {n : Nat}
    (hx : s.object o = some x) (hn : x.pointerCount = n + 1)
    (hb : s'.object = (s.set o (some { x with pointerCount := n })).object)
    (hrp : s'.reaperList = if n = 0 ∧ x.permanent = false then s.reaperList ++ [o] else s.reaperList) :
    HeapOk s' M := by
  have hold : s.count o = some (n + 1) := by
    rw [Threads.count, hx, ← hn]
    rfl
  have hnt : o ∉ s.reaperList := by
    intro hme
    have := (h.reaper o x hx).2 hme
    omega
  have hcount : s'.count = update s.count o (some n) := by
    rw [show s'.count = (s.set o (some { x with pointerCount := n })).count from
      funext fun p => by rw [count, count, hb], count_set]
    rfl
  refine ⟨hcount ▸ h.counts.dereference hold, fun p y hy => ?_, fun p hp => ?_, ?_⟩
  · rw [hb, object_set] at hy
    rw [hrp]
    split at hy
    · next hp =>
        cases hy
        subst hp
        split
        · next hls => simp [hls]
        · next hls => simp [hls, hnt]
    · next hp =>
        rw [h.reaper p y hy]
        split
        · simp [hp]
        · rfl
  · rw [hb, object_set]
    split
    · exact nofun
    · next hne =>
        refine h.reaped p ?_
        rw [hrp] at hp
        split at hp
        · simpa [hne] using hp
        · exact hp
  · rw [hrp]
    split
    · refine nodup_append.2 ⟨h.nodup, nodup_singleton o, ?_⟩
      rintro p hp q hq rfl
      exact hnt (mem_singleton.1 hq ▸ hp)
    · exact h.nodup

/-- `ObDereferenceObject` takes one reference away. -/
theorem dereference_spec (h : HeapOk s (o ::ₘ M)) {highIpl : Bool}
    (hs : s.obDereferenceObject o highIpl = some s') :
    HeapOk s' M ∧ SameHolders s s' ∧ ∃ x, s.object o = some x ∧
      ∀ p, s'.object p = if p = o then dropped highIpl x else s.object p := by
  obtain ⟨x, hx, hs⟩ := bind_eq_some_iff.1 hs
  split at hs
  · cases hs
  · next n hn =>
      have hpd : x.pointerCount - 1 = n := by omega
      split at hs
      · next hst =>
          cases hs
          have hkp : dropped highIpl x = some { x with pointerCount := n } := by
            rw [dropped, hpd, if_neg]
            rintro ⟨hon, hpr, -⟩
            simp [hpr] at hst
            omega
          refine ⟨h.set_pred hx hn rfl ?_, ⟨rfl, rfl, rfl, .inl rfl⟩, x, hx, fun p => ?_⟩
          · rw [if_neg]
            · rfl
            · rintro ⟨hz, hpr⟩
              simp [hz, hpr] at hst
          · rw [hkp, object_set]
      · next hls =>
          rw [not_or, not_not, Bool.not_eq_true] at hls
          have hrp : HeapOk { s.set o (some { x with pointerCount := n }) with
              reaperList := s.reaperList ++ [o] } M :=
            h.set_pred hx hn rfl (if_pos hls).symm
          split at hs
          · next hip =>
              cases hs
              refine ⟨hrp, ⟨rfl, rfl, rfl, .inl rfl⟩, x, hx, fun p => ?_⟩
              have hkp : dropped highIpl x = some { x with pointerCount := n } := by
                rw [dropped, hpd, if_neg]
                simp [hip]
              rw [hkp, ← object_set]
          · next hip =>
              cases hs
              have hgn : dropped highIpl x = none :=
                if_pos ⟨by omega, hls.2, by simpa using hip⟩
              have hb (p : O) : ((s.set o (some { x with pointerCount := n })).obpDeleteObject
                  o x).object p = if p = o then none else s.object p := by
                rw [object_obpDeleteObject, object_set]
                split
                · rfl
                · rfl
              have hz : o ∉ M := by
                have hcount := hrp.counts.count_eq (o := o) (n := 0)
                  (by simp [Threads.count, set, hls.1])
                exact Multiset.count_eq_zero.1 hcount
              have hnt : o ∉ s.reaperList := by
                intro hme
                have := (h.reaper o x hx).2 hme
                omega
              refine ⟨hrp.delete hz ?_ ?_ ?_ ?_, ?_, x, hx, ?_⟩
              · rw [reaperList_obpDeleteObject]
                exact hnt
              · intro p
                exact object_obpDeleteObject _ _ _ _
              · intro p hp
                rw [reaperList_obpDeleteObject]
                exact (by simp [hp, set])
              · rw [reaperList_obpDeleteObject]
                exact h.nodup
              · have hsm := sameHolders_obpDeleteObject
                  (s.set o (some { x with pointerCount := n })) o x
                exact ⟨hsm.system, hsm.handles, hsm.threads, hsm.calls⟩
              · rw [hgn]
                exact hb

theorem keeps_dropped {highIpl : Bool} (hx : s.object o = some x)
    (hb : ∀ p, s'.object p = if p = o then dropped highIpl x else s.object p) :
    Keeps s s' := by
  intro p y hy
  rw [hb] at hy
  split at hy
  · next hp =>
      rw [dropped] at hy
      split at hy
      · cases hy
      · cases hy
        exact .inr ⟨x, hp ▸ hx, rfl, rfl, rfl⟩
  · exact .inr ⟨y, hy, rfl, rfl, rfl⟩

end Threads

end Boron.Ps
