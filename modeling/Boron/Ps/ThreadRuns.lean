import Boron.Ps.ThreadCounts

/-! # Runs of the thread services

Every step that meets `Calm` keeps the accounts (`Accounted.step`), so that in every run of such
steps the counts are right (`threads_safe_of_calm`). -/

namespace Boron.Ps

open List Option

namespace Threads

variable {O : Type} [DecidableEq O] {s s' : Threads O} {o p : O} {call : Call O}

/-! ## The turns of the calls -/

/-- A call that is still there after another has gone on was there before. -/
theorem mem_calls_of_enter {c next : Call O} (hne : c ≠ next)
    (h : c ∈ (enter { s with calls := s.calls.erase call } next).calls) : c ∈ s.calls := by
  obtain rfl | hold := mem_cons.1 h
  · exact absurd rfl hne
  · exact mem_of_mem_erase hold

namespace Accounted

theorem enterAll (call : Call O) (h : s.Accounted ↑call.references) (hok : s.CallOk call) :
    (s.enter call).Accounted 0 := by
  rw [← zero_add (↑call.references : Multiset O)] at h
  exact h.enter hok

theorem dropThen (h : s.Accounted 0) (hcl : call ∈ s.calls) (next : Call O) {highIpl : Bool}
    (hrf : (↑call.references : Multiset O) = o ::ₘ ↑next.references) (hok : s.CallOk next)
    (hc : ∀ p, .cleaned o p ∈ s.calls ∨ next = .cleaned o p → s.count o ≠ some 1)
    (hs : (Threads.enter { s with calls := s.calls.erase call } next).obDereferenceObject o highIpl
      = some s') : s'.Accounted 0 := by
  have h₁ := h.leave hcl
  rw [hrf, zero_add, ← Multiset.singleton_add] at h₁
  have hok' : Threads.CallOk { s with calls := s.calls.erase call } next := by
    cases next <;> exact hok
  refine dereference (h₁.enter hok') (fun p hp => hc p ?_) hs
  obtain heq | hold := mem_cons.1 hp
  · exact .inr heq.symm
  · exact .inl (mem_of_mem_erase hold)

theorem turn (h : s.Accounted 0) {ans : Answers O} (hcl : call ∈ s.calls)
    (hc : s.Calm (.turn call ans)) (hs : s.turn call ans = some s') :
    s'.Accounted 0 := by
  have h₀ := h.leave hcl
  rw [zero_add] at h₀
  have hok := h.calls call hcl
  have hme {q : O} (hq : q ∈ call.references) : q ∈ s.refs := mem_refs_of_call hcl hq
  have hls (q r : O) (hdrops : s.drops (.turn call ans) = some q)
      (hread : .cleaned q r ∈ s.calls) : s.count q ≠ some 1 :=
    hc.1 q hdrops ⟨r, .inl hread⟩
  cases call with
  | creating p =>
    simp only [Threads.turn] at hs
    split at hs
    · cases hs
      exact enterAll (.holding p) h₀ trivial
    · next o ho =>
        split at hs
        · next hvacant =>
            have hst : ans.stack = true := hc.2 (by simp [ho])
            rw [if_pos hst] at hs
            obtain ⟨s₁, hs₁, rfl⟩ := map_eq_some_iff.1 hs
            have h₁ := h₀.startThread hvacant.1 (.inl (by simp [Call.references])) hok hs₁
            refine enterAll (.initialized p o) ?_ trivial
            have hw : (o ::ₘ (↑[p] : Multiset O)) = ↑[p, o] :=
              Multiset.coe_eq_coe.2 (List.Perm.swap p o [])
            exact hw ▸ h₁
        · cases hs
  | initialized p o =>
    simp only [Threads.turn] at hs
    obtain ⟨s₁, hs₁, rfl⟩ := map_eq_some_iff.1 hs
    have h₁ := h₀.insertObject (by simp [Call.references]) hs₁
    split
    · next handle _ => exact enterAll (.inserted p o handle) h₁ trivial
    · exact enterAll (.undoing p o) h₁ trivial
  | inserted p o handle =>
    simp only [Threads.turn] at hs
    split at hs
    · next hcp =>
        refine h.dropThen hcl (.holding p) (Multiset.coe_eq_coe.2 (List.Perm.swap o p [])) trivial
          (fun q hq => hls o q ?_ (hq.resolve_right fun h => by cases h)) hs
        simp only [drops, if_pos hcp]
    · next hcp =>
        have h₁ := enterAll (.undoing p o) h₀ trivial
        refine h₁.close (fun e q he hq => hls e.2 q ?_ ?_) hs
        · simp only [drops, if_neg hcp]
          exact map_eq_some_iff.2 ⟨e, he, rfl⟩
        · exact mem_calls_of_enter (by simp) hq
  | undoing p o =>
    exact h.dropThen hcl (.holding p) (Multiset.coe_eq_coe.2 (List.Perm.swap o p [])) trivial
      (fun q hq => hls o q rfl (hq.resolve_right fun h => by cases h)) hs
  | holding o =>
    simp only [Threads.turn] at hs
    split at hs
    · have h₁ := enterAll (.holding o) h₀ trivial
      refine h₁.insertObject ?_ hs
      rw [zero_add]
      exact mem_refs_of_call mem_cons_self (by simp [Call.references])
    · next hnn =>
        refine dereference h₀ (fun q hq => hls o q ?_ (mem_of_mem_erase hq)) hs
        simp only [drops, hnn]
        rfl
  | terminating _ _ => exact hok.elim
  | suspending _ _ => exact hok.elim
  | cleaning o p =>
    obtain ⟨x, hx, hcount, -⟩ := h.heap.live (o := o)
      (Multiset.mem_add.2 (.inr (hme (by simp [Call.references]))))
    refine h.dropThen hcl (.cleaned o p) rfl ⟨hok.1, hok.2, fun y hy => ?_⟩ (fun q _ => ?_) hs
    · cases hx.symm.trans hy
      exact hcount
    · exact hc.1 o rfl ⟨p, .inr ⟨ans, rfl⟩⟩
  | cleaned o p =>
    obtain ⟨⟨x, hx, -, hp⟩, -⟩ := hok
    simp only [Threads.turn, hx, bind_some, hp] at hs
    exact dereference h₀ (fun q hq => hls p q rfl (mem_of_mem_erase hq)) hs
  | killing p =>
    simp only [Threads.turn] at hs
    split at hs
    · next e he =>
        have h₁ := enterAll (.killing p) h₀ trivial
        refine h₁.close (fun e' q he' hq => hls e'.2 q ?_ ?_) hs
        · have hb : ((s.handles.find? fun e => e.1.process = p).bind fun e => s.entry e.1)
              = some e' := bind_eq_some_iff.2 ⟨e, he, he'⟩
          simp only [drops, hb]
          rfl
        · exact mem_calls_of_enter (by simp) hq
    · cases hs
      exact h₀

/-! ## The steps -/

variable {caller : Caller O}

theorem runs_process (h : s.Accounted 0) (hrn : s.Runs caller) :
    (caller.process ∈ s.refs ∨ caller.process = s.systemProcess) ∧ s.IsProcess caller.process := by
  obtain ⟨_ | o, p⟩ := caller
  · obtain ⟨x, hx, hy, -⟩ := h.system
    have heq : p = s.systemProcess := hrn
    exact ⟨.inr heq, x, heq ▸ hx, hy⟩
  · exact ⟨.inl (mem_refs_of_thread hrn).2, (h.threads _ hrn).2⟩

variable {arg : Argument} {et : Option ObjectType}

/-- What `ExReferenceObjectByHandle` finds is referred to, or is the system process. -/
theorem resolve_spec (h : s.Accounted 0) (hrn : s.Runs caller) (ho : s.resolve caller arg et = some o) :
    (o ∈ s.refs ∨ o = s.systemProcess) ∧ (et = some .process → s.IsProcess o) := by
  cases arg with
  | currentThread =>
    simp only [resolve] at ho
    split at ho
    · next hy =>
        obtain ⟨t, p⟩ := caller
        obtain rfl : t = some o := ho
        exact ⟨.inl (mem_refs_of_thread hrn).1, fun hp => by simp [hy] at hp⟩
    · cases ho
  | currentProcess =>
    simp only [resolve] at ho
    split at ho
    · cases ho
      exact ⟨(h.runs_process hrn).1, fun _ => (h.runs_process hrn).2⟩
    · cases ho
  | number number =>
    simp only [resolve] at ho
    obtain ⟨e, he, ho⟩ := bind_eq_some_iff.1 ho
    obtain ⟨x, hx, ho⟩ := bind_eq_some_iff.1 ho
    split at ho
    · cases ho
    · next ha =>
        cases ho
        refine ⟨.inl (mem_refs_of_handle (mem_of_find?_eq_some he)), fun hp => ?_⟩
        refine ⟨x, hx, ?_⟩
        rw [hp] at ha
        simp only [any_some, decide_eq_true_eq, not_not] at ha
        exact ha.symm

theorem refer (h : s.Accounted 0) (hrn : s.Runs caller) (next : O → Call O)
    (hrf : ∀ o, (next o).references = [o])
    (hok : ∀ o s', s.resolve caller arg et = some o →
      s.obReferenceObjectByPointer o = some s' → s'.CallOk (next o))
    (hs : s.exReferenceObjectByHandle caller arg et next = some s') :
    s'.Accounted 0 := by
  simp only [exReferenceObjectByHandle] at hs
  split at hs
  · cases hs
    exact h
  · next o ho =>
      obtain ⟨s₁, hs₁, rfl⟩ := map_eq_some_iff.1 hs
      have h₁ := h.reference ((h.resolve_spec hrn ho).1.imp_left fun hme => by
        rwa [zero_add]) hs₁
      refine enterAll (next o) ?_ (hok o s₁ ho hs₁)
      rw [hrf o]
      exact h₁

theorem isProcess_reference (hs : s.obReferenceObjectByPointer o = some s') (hp : s.IsProcess p) :
    s'.IsProcess p := by
  obtain ⟨hkp, -, hst⟩ := keeps_reference hs
  obtain ⟨x, hx, -⟩ := id hp
  exact hp.keeps hkp (hst p (by simp [hx]))

theorem step (h : s.Accounted 0) {a : Action O} (hc : s.Calm a) (hs : s.step a = some s') :
    s'.Accounted 0 := by
  cases a with
  | osCreateProcess o handle =>
    simp only [Threads.step] at hs
    split at hs
    · next hvacant =>
        cases hs
        have h₁ := h.create hvacant.1.1 (x := ⟨1, false, .process⟩) Nat.one_ne_zero
        rw [Multiset.replicate_one, Multiset.singleton_add] at h₁
        exact h₁.insert handle
    · cases hs
  | osCreateThread caller pro =>
    simp only [Threads.step] at hs
    split at hs
    · next hrn =>
        cases pro with
        | none =>
          obtain ⟨s₁, hs₁, rfl⟩ := map_eq_some_iff.1 hs
          obtain ⟨x, hx, hy, -⟩ := h.system
          exact enterAll (.creating s.systemProcess) (h.reference (.inr rfl) hs₁)
            (isProcess_reference hs₁ ⟨x, hx, hy⟩)
        | some arg =>
          refine h.refer hrn .creating (fun _ => rfl) (fun o s₁ ho hs₁ => ?_) hs
          exact isProcess_reference hs₁ ((h.resolve_spec hrn ho).2 rfl)
    · cases hs
  | psCreateSystemThreadFast caller o stack =>
    simp only [Threads.step] at hs
    split at hs
    · next hcn =>
        have hp := h.runs_process hcn.1
        split at hs
        · obtain ⟨s₁, hs₁, rfl⟩ := map_eq_some_iff.1 hs
          refine enterAll (.holding o) ?_ trivial
          exact h.startThread hcn.2.1 (hp.1.imp_left fun hme => by rwa [zero_add]) hp.2 hs₁
        · cases hs
          have h₁ := h.create hcn.2.1 (x := ⟨1, false, .thread none false false⟩) Nat.one_ne_zero
          exact enterAll (.holding o) h₁ trivial
    · cases hs
  | refer caller arg et =>
    simp only [Threads.step] at hs
    split at hs
    · next hrn => exact h.refer hrn .holding (fun _ => rfl) (fun _ _ _ _ => trivial) hs
    · cases hs
  | osClose caller num =>
    simp only [Threads.step] at hs
    split at hs
    · refine h.close (fun e p he hread => hc.1 e.2 ?_ ⟨p, .inl hread⟩) hs
      exact map_eq_some_iff.2 ⟨e, he, rfl⟩
    · cases hs
  | osTerminateThread caller arg =>
    simp only [Threads.step] at hs
    split at hs
    · simp only [exReferenceObjectByHandle, hc.2] at hs
      cases hs
      exact h
    · cases hs
  | osSetSuspendedThread caller arg is =>
    simp only [Threads.step] at hs
    split at hs
    · simp only [exReferenceObjectByHandle, hc.2] at hs
      cases hs
      exact h
    · cases hs
  | turn call ans =>
    simp only [Threads.step] at hs
    split at hs
    · next hcl => exact h.turn hcl hc hs
    · cases hs
  | exit o pro =>
    simp only [Threads.step, kepCleanUpThread] at hs
    split at hs
    · next he =>
        cases hs
        exact enterAll (.cleaning o pro) (h.stop he) (h.threads _ he)
    · cases hs
  | reap o =>
    simp only [Threads.step] at hs
    split at hs
    · next ho =>
        obtain ⟨x, hx, rfl⟩ := map_eq_some_iff.1 hs
        exact h.reap ho hx
    · cases hs

/-! ## What the accounts say -/

theorem count_refs (s : Threads O) (o : O) :
    s.refs.count o = s.handleCount o + (s.threadList.map Prod.fst).count o
      + (s.threadList.map Prod.snd).count o + s.useCount o := by
  simp only [refs, Multiset.count_add, Multiset.coe_count]
  rfl

theorem safe (h : s.Accounted 0) : s.Safe := by
  have hh := h.heap
  rw [zero_add] at hh
  have hcount (o : O) (x : Object O) (hx : s.object o = some x) :
      x.pointerCount = s.handleCount o + (s.threadList.map Prod.fst).count o
        + (s.threadList.map Prod.snd).count o + s.useCount o := by
    rw [← count_refs]
    refine (hh.counts.count_eq ?_).symm
    rw [count, hx]
    rfl
  refine ⟨fun o x hx hty => ?_, fun o x hx hty => ?_, fun o ho => ?_, fun o x hx hz => ?_,
    fun o p hc => h.read hc⟩
  · have hsn : (s.threadList.map Prod.snd).count o = 0 := by
      refine count_eq_zero.2 fun hme => ?_
      obtain ⟨e, he, rfl⟩ := List.mem_map.1 hme
      obtain ⟨y, hy, hty'⟩ := (h.threads e he).2
      cases hx.symm.trans hy
      rw [hty] at hty'
      cases hty'
    rw [hcount o x hx, hsn, h.started.count, Nat.add_zero]
  · have hfs : (s.threadList.map Prod.fst).count o = 0 := by
      refine count_eq_zero.2 fun hme => ?_
      obtain ⟨e, he, rfl⟩ := List.mem_map.1 hme
      obtain ⟨y, hy, hty', -⟩ := (h.threads e he).1
      cases hx.symm.trans hy
      rw [hty] at hty'
      cases hty'
    rw [hcount o x hx, hfs, Nat.add_zero]
  · have hme : o ∈ s.refs := by
      refine Multiset.count_pos.1 ?_
      rw [count_refs]
      obtain ho | ho | ho | ho := ho
      · omega
      · have := count_pos_iff.2 ho
        omega
      · have := count_pos_iff.2 ho
        omega
      · omega
    obtain ⟨x, hx, -, hnt⟩ := hh.live hme
    exact ⟨by simp [hx], hnt⟩
  · by_cases hp : x.permanent = true
    · exact .inl hp
    · exact .inr ((hh.reaper o x hx).1 ⟨hz, by simpa using hp⟩)

end Accounted

/-! ## Runs -/

/-- **Thread and process objects are counted right**, and deleted when nothing refers to them, in
every run of calm steps. -/
theorem threads_safe_of_calm {systemProcess : O} (h : Reaches step Calm (start systemProcess) s) : s.Safe :=
  (h.invariant (I := fun s : Threads O => s.Accounted 0) (accounted_start systemProcess)
    fun _ _ _ hi hc hs => hi.step hc hs).safe

/-- A test for calm steps, while no thread is being cleaned up. -/
def plain (s : Threads O) (a : Action O) : Bool :=
  (s.calls.all fun
    | .cleaned _ _ => false
    | _ => true) &&
  match a with
  | .osTerminateThread _ _ | .osSetSuspendedThread _ _ _ | .turn (.cleaning _ _) _ => false
  | .turn (.creating _) answers => answers.stack
  | _ => true

theorem calm_of_plain {a : Action O} (h : s.plain a = true) : s.Calm a := by
  obtain ⟨hcl, ha⟩ := Bool.and_eq_true_iff.1 h
  refine ⟨fun o _ hrd => ?_, ?_⟩
  · obtain ⟨p, hc | ⟨ans, rfl⟩⟩ := hrd
    · exact absurd (List.all_eq_true.1 hcl _ hc) Bool.false_ne_true
    · exact absurd ha Bool.false_ne_true
  · cases a with
    | osTerminateThread _ _ => exact absurd ha Bool.false_ne_true
    | osSetSuspendedThread _ _ _ => exact absurd ha Bool.false_ne_true
    | turn call ans =>
      cases call with
      | creating _ => exact fun _ => ha
      | _ => trivial
    | _ => trivial

/-- The kernel's own thread creates a process and a thread in it. -/
def createBoth : List (Action Nat) :=
  [.osCreateProcess 1 ⟨0, 1⟩, .osCreateThread ⟨none, 0⟩ (some (.number 1)),
    .turn (.creating 1) ⟨some 2, true, none, true⟩,
    .turn (.initialized 1 2) ⟨none, true, some ⟨0, 2⟩, true⟩,
    .turn (.inserted 1 2 ⟨0, 2⟩) ⟨none, true, none, true⟩, .turn (.holding 1) ⟨none, true, none, true⟩]

/-- Then the thread has a handle and its own reference, and the process a handle and that of the
thread. -/
theorem threads_safe_of_calm_create : ∃ s : Threads Nat, Reaches step Calm (start 0) s ∧
    s.count 1 = some 2 ∧ s.count 2 = some 2 ∧ s.Safe := by
  have hrn : (runChecked step plain createBoth (start 0)).map (fun s => (s.count 1, s.count 2))
      = some (some 2, some 2) := by decide
  obtain ⟨s, hs, he⟩ := map_eq_some_iff.1 hrn
  have hc : Reaches step Calm (start 0) s := .of_runChecked (fun _ _ => calm_of_plain) hs
  obtain ⟨hp, hh⟩ := Prod.mk.inj he
  exact ⟨s, hc, hp, hh, threads_safe_of_calm hc⟩

/-- `OSSetSuspendedThread` keeps the reference that it takes. -/
theorem threads_not_safe : ¬ ∀ (O : Type) [DecidableEq O] (systemProcess : O) (s : Threads O),
    Reaches step (fun _ _ => True) (start systemProcess) s → s.Safe := by
  intro h
  have hrn : (runChecked step (fun _ _ => true) (createBoth ++
      [Action.osSetSuspendedThread ⟨none, 0⟩ (.number 2) true,
        Action.turn (.suspending 2 true) ⟨none, true, none, true⟩]) (start 0)).map
      (fun s => (s.object 2, s.handleCount 2, s.threadList, s.useCount 2))
        = some (some ⟨3, false, .thread (some 1) true false⟩, 1, [(2, 1)], 0) := by decide
  obtain ⟨s, hs, he⟩ := map_eq_some_iff.1 hrn
  have hsf := h Nat 0 s (.of_runChecked (fun _ _ _ => trivial) hs)
  simp only [Prod.mk.injEq] at he
  obtain ⟨hb, hh, hth, hu⟩ := he
  have hcount := hsf.thread 2 _ hb rfl
  rw [hh, hth, hu] at hcount
  exact absurd hcount (by decide)

end Threads

end Boron.Ps
