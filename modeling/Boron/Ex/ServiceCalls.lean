import Boron.Ex.CreateCalls

/-! # When the object services are balanced

A call of `ExOpenObjectUserCall` is only balanced without a root directory, without a copied name if
it succeeds, and with the thread in kernel mode if it refuses the flag for duplication. With the
result for the calls that create objects this gives `services_balanced_iff`. -/

namespace Boron.Ex.Services

open Boron.Ob Function Option

variable {O : Type} [DecidableEq O]

/-! ## Calls that open -/

/-- What a lookup leaves when the call fails after all. -/
def LeavesNothing (s : Services O) (A : Option ObjectAttributes) (o : O) (ns' : Namespace O) : Prop :=
  (∀ p, p ≠ o → (ns'.object p).isSome = (s.ns.object p).isSome) ∧
    (s.ns.object o = none → ns'.references o = 1) ∧
    ∀ p, s.Parent A p → ns'.references p = s.ns.references p + if p = o then 1 else 0

/-- What a lookup leaves when the call succeeds. -/
def LeavesOne (s : Services O) (A : Option ObjectAttributes) (o : O) (ns' : Namespace O) : Prop :=
  ns'.references o = s.ns.references o + 1 ∧
    ∀ p, s.Parent A p → p ≠ o → ns'.references p = s.ns.references p

/-- A call that has looked its object up does not reach the defects. -/
def OpensFound (s : Services O) (A : Option ObjectAttributes) (c : OpenCall)
    (attributes : ObjectAttributes) : Except ObStatus O → Namespace O → Prop
  | .error _, ns' => (∀ p, (ns'.object p).isSome = (s.ns.object p).isSome) ∧
      ∀ p, s.Parent A p → ns'.references p = s.ns.references p
  | .ok o, ns' =>
    (c.openMethod = .success ∧ Delivers c.handle c.copyOut →
      ¬ s.NameCopied attributes ∧ s.LeavesOne A o ns') ∧
    (¬ (c.openMethod = .success ∧ Delivers c.handle c.copyOut) → s.LeavesNothing A o ns')

section

variable {m : ObManager O} {s t : Services O} {A : Option ObjectAttributes} {c : OpenCall}
  {attributes : ObjectAttributes} {extra : Multiset O} {o : O}

/-- An object that was found is inserted in the handle table, or only let go. -/
theorem openFound_spec {ns : Namespace O} (ho : m.Findable ns o)
    (ht : t.ns = m.withRefs ns ({o} + extra)) :
    (c.openMethod = .success ∧ ∃ handle, c.handle = .ok handle ∧ t.openFound c o
      = some (.ok handle, { t with handles := update t.handles handle (some o) })) ∨
    (¬ (c.openMethod = .success ∧ ∃ handle, c.handle = .ok handle) ∧
      ∃ st, t.openFound c o = some (.error st, { t with ns := m.withRefs ns extra })) := by
  have hdrop : t.ns.obDereferenceObject o false = some (m.withRefs ns extra) := by
    rw [ht, Multiset.singleton_add, ObManager.dereference_withRefs ho]
  have ha : (t.ns.obReferenceObjectByPointer o).obDereferenceObject o false = some t.ns := by
    rw [ht, ObManager.reference_withRefs_of_mem (by simp), ObManager.dereference_withRefs ho]
  unfold openFound
  by_cases hmt : c.openMethod = .success
  · rw [if_neg (fun h => h hmt)]
    cases hrs : c.handle with
    | error st =>
      refine .inr ⟨fun h => ?_, st, ?_⟩
      · obtain ⟨-, handle, hok⟩ := h
        cases hok
      · simp only [obInsertObject, ha, map_some, bind_some, hdrop]
    | ok handle =>
      refine .inl ⟨hmt, handle, rfl, ?_⟩
      simp only [obInsertObject, bind_some, ha, map_some]
  · rw [if_pos hmt, hdrop]
    exact .inr ⟨fun h => hmt h.1, c.openMethod, rfl⟩

/-- What becomes of an object that was found. -/
theorem afterOpen_balanced_iff (h : s.Promised m)
    (hh : ∀ handle, c.handle = .ok handle → s.handles handle = none)
    (ht : s.Started t (decide (s.mode = .user)) attributes) (ho : m.Findable s.ns o)
    (hns : t.ns = m.withRefs s.ns ({o} + extra)) :
    ∃ res s', (({ t with mode := .kernel }.openFound c o).bind fun (res, t') =>
        { t' with mode := t.mode }.afterOpen c (decide (s.mode = ProcessorMode.user)) attributes
          res) = some (res, s') ∧
      (s.Balanced A res s' ↔ (c.openMethod = .success ∧ Delivers c.handle c.copyOut →
          ¬ s.NameCopied attributes ∧ o ∉ extra ∧ ∀ p ∈ extra, ¬ s.Parent A p) ∧
        (¬ (c.openMethod = .success ∧ Delivers c.handle c.copyOut) → s.Quiet A extra)) := by
  have hu : ∀ st, s.Balanced A (.error st)
      ({ t with ns := m.withRefs s.ns extra }.dispose (decide (s.mode = ProcessorMode.user))
        attributes) ↔ s.Quiet A extra := balanced_fail_iff ht
  rcases openFound_spec (t := { t with mode := .kernel }) (c := c) ho hns with
    ⟨hmt, handle, hok, heq⟩ | ⟨hnt, st, heq⟩
  · rw [heq, bind_some]
    dsimp only [afterOpen]
    by_cases hc : c.copyOut = .success
    · have hdl : c.openMethod = .success ∧ Delivers c.handle c.copyOut :=
        ⟨hmt, ⟨handle, hok⟩, hc⟩
      rw [if_pos hc]
      refine ⟨_, _, rfl, (balanced_opened_iff h ht hns (hh handle hok)).trans ?_⟩
      simp only [hdl, not_true_eq_false, false_implies, true_implies, and_true, and_self,
        NameCopied, decide_eq_true_eq]
    · have hdl : ¬ (c.openMethod = .success ∧ Delivers c.handle c.copyOut) :=
        fun h => hc h.2.2
      rw [if_neg hc]
      have hcl : update (update t.handles handle (some o)) handle none = t.handles := by
        rw [update_idem, ← hh handle hok, ← ht.handles, update_eq_self]
      simp only [obClose, update_self, hns, Multiset.singleton_add,
        ObManager.dereference_withRefs ho, map_some, hcl]
      refine ⟨_, _, rfl, (hu _).trans ?_⟩
      simp only [hdl, false_implies, not_false_eq_true, true_implies, true_and]
  · have hdl : ¬ (c.openMethod = .success ∧ Delivers c.handle c.copyOut) :=
      fun h => hnt ⟨h.1, h.2.1⟩
    rw [heq, bind_some]
    refine ⟨_, _, rfl, (hu _).trans ?_⟩
    simp only [hdl, false_implies, not_false_eq_true, true_implies, true_and]

/-! The conditions on what a lookup leaves, in terms of its leaks. -/

section

variable {leak : Multiset O} {ns' : Namespace O}

theorem quiet_of_error_iff (hns : ns' = m.withRefs s.ns leak) :
    ((∀ p, (ns'.object p).isSome = (s.ns.object p).isSome) ∧
      ∀ p, s.Parent A p → ns'.references p = s.ns.references p) ↔ s.Quiet A leak := by
  rw [hns, object_withRefs_isSome_iff]
  simp only [ObManager.references_withRefs, Nat.add_eq_left, Multiset.count_eq_zero, Quiet]
  exact and_congr_right fun _ =>
    ⟨fun h p hp hpr => h p hpr hp, fun h p hpr hp => h p hp hpr⟩

theorem references_found (o : O) (leak : Multiset O) (p : O) :
    (m.withRefs s.ns ({o} + leak)).references p
      = s.ns.references p + (if p = o then 1 else 0) + leak.count p := by
  rw [ObManager.references_withRefs, Multiset.count_add, Multiset.count_singleton]
  omega

theorem leavesOne_iff (hns : ns' = m.withRefs s.ns ({o} + leak)) :
    s.LeavesOne A o ns' ↔ o ∉ leak ∧ ∀ p ∈ leak, ¬ s.Parent A p := by
  unfold LeavesOne
  rw [hns, references_found, if_pos rfl]
  constructor
  · rintro ⟨hon, hpn⟩
    have hnt : o ∉ leak := by
      rw [← Multiset.count_eq_zero]
      omega
    refine ⟨hnt, fun p hp hpr => ?_⟩
    have hne : p ≠ o := by
      rintro rfl
      exact hnt hp
    have hsm := hpn p hpr hne
    have hpos := Multiset.count_pos.2 hp
    rw [references_found, if_neg hne] at hsm
    omega
  · rintro ⟨hnt, hpn⟩
    refine ⟨by rw [Multiset.count_eq_zero.2 hnt], fun p hpr hne => ?_⟩
    have hp : p ∉ leak := fun hp => hpn p hp hpr
    rw [references_found, if_neg hne, Multiset.count_eq_zero.2 hp, Nat.add_zero]

theorem leavesNothing_iff (hns : ns' = m.withRefs s.ns ({o} + leak)) :
    s.LeavesNothing A o ns' ↔ s.Quiet A leak := by
  unfold LeavesNothing
  rw [hns]
  constructor
  · rintro ⟨hso, hw, hpn⟩
    refine ⟨fun p hp hnn => ?_, fun p hp hpr => ?_⟩
    · by_cases hne : p = o
      · subst hne
        have hon := hw hnn
        have hpos := Multiset.count_pos.2 hp
        rw [references_found, if_pos rfl] at hon
        omega
      · obtain ⟨x, hx, -⟩ := ObManager.object_withRefs_of_mem m s.ns
          (Multiset.mem_add.2 (.inr hp) : p ∈ {o} + leak)
        have := hso p hne
        rw [hx, hnn] at this
        cases this
    · have hsm := hpn p hpr
      have hpos := Multiset.count_pos.2 hp
      rw [references_found] at hsm
      omega
  · rintro ⟨hold, hpn⟩
    refine ⟨fun p hne => ?_, fun hnn => ?_, fun p hpr => ?_⟩
    · cases hx : s.ns.object p with
      | none =>
        have hp : p ∉ {o} + leak := by
          rw [Multiset.mem_add, Multiset.mem_singleton, not_or]
          exact ⟨hne, fun hp => hold p hp hx⟩
        rw [ObManager.object_withRefs_of_none hx, if_pos (Multiset.count_eq_zero.2 hp)]
      | some x => rw [ObManager.object_withRefs_of_some hx]; rfl
    · have ho : o ∉ leak := fun ho => hold o ho hnn
      rw [references_found, if_pos rfl, Multiset.count_eq_zero.2 ho]
      simp [Namespace.references, hnn]
    · have hp : p ∉ leak := fun hp => hpn p hp hpr
      rw [references_found, Multiset.count_eq_zero.2 hp, Nat.add_zero]

end

/-- What the rest of the system promises for a call that opens an object. -/
structure OpenPromised (m : ObManager O) (s : Services O) (c : OpenCall) : Prop where
  system : s.Promised m
  handle : ∀ handle, c.handle = .ok handle → s.handles handle = none

/-- The flags of a call's lookup. -/
def lookUpFlags (s : Services O) (attributes : ObjectAttributes) : OpenFlags :=
  ⟨attributes.openSymlink, attributes.userMode || s.mode = .user, attributes.objectNamespace⟩

/-- The calls that do not reach the defects of `ExOpenObjectUserCall`, with their attributes
taken. -/
def OpensWellWith (m : ObManager O) (s : Services O) (A : Option ObjectAttributes) (c : OpenCall)
    (attributes : ObjectAttributes) : Prop :=
  if attributes.duplicateOnFork && !c.supportsDuplicate then s.mode = .kernel
  else
    match attributes.rootDirectory with
    | some handle => s.handles handle = none
    | none => ∀ result ns', m.obpLookUpObjectPath none attributes.objectName (some c.type) 0
        (s.lookUpFlags attributes) true s.ns = some (result, ns') →
          s.OpensFound A c attributes result ns'

section

variable (h : OpenPromised m s c) (ht : s.Started t (decide (s.mode = .user)) attributes)

include h ht

/-- A lookup from an initial object (or from none) with the rest of the call. -/
theorem openFrom_spec (ini : Option O) (ha : ∀ o ∈ ini, s.ns.Alive o)
    (hns : t.ns = m.withRefs s.ns (parentRefs ini)) :
    ∃ (found : Except ObStatus O) (leak : Multiset O),
      m.obpLookUpObjectPath ini attributes.objectName (some c.type) 0 (s.lookUpFlags attributes)
        true t.ns = some (found, m.withRefs s.ns (ObManager.gained found + (leak + parentRefs ini))) ∧
      ∃ res s', (({ t with mode := .kernel }.openFrom m c ini attributes
          (attributes.userMode || t.mode = ProcessorMode.user)).bind fun (res, t') =>
            { t' with mode := t.mode }.afterOpen c (decide (s.mode = ProcessorMode.user)) attributes
              res) = some (res, s') ∧
        (s.Balanced A res s' ↔
          match found with
          | .error _ => s.Quiet A (leak + parentRefs ini)
          | .ok o =>
            (c.openMethod = .success ∧ Delivers c.handle c.copyOut →
              ¬ s.NameCopied attributes ∧ o ∉ leak + parentRefs ini ∧
                ∀ p ∈ leak + parentRefs ini, ¬ s.Parent A p) ∧
            (¬ (c.openMethod = .success ∧ Delivers c.handle c.copyOut) →
              s.Quiet A (leak + parentRefs ini))) := by
  obtain ⟨found, leak, hlk, -, hfn⟩ := ObManager.lookUp_does h.system.wellFormed ini ha
    attributes.objectName (some c.type) 0 (s.lookUpFlags attributes) (parentRefs ini)
  rw [← hns] at hlk
  have hfl : (⟨attributes.openSymlink, attributes.userMode || t.mode = ProcessorMode.user,
      attributes.objectNamespace⟩ : OpenFlags) = s.lookUpFlags attributes := by
    rw [ht.mode]
    rfl
  refine ⟨found, leak, hlk, ?_⟩
  unfold openFrom
  rw [hfl, hlk, bind_some]
  cases found with
  | error st =>
    simp only [ObManager.gained, zero_add]
    exact ⟨_, _, rfl, balanced_fail_iff ht st⟩
  | ok o =>
    have ht' : s.Started { t with ns := m.withRefs s.ns ({o} + (leak + parentRefs ini)) }
        (decide (s.mode = .user)) attributes := ⟨ht.handles, ht.mode, ht.allocated, ht.freed⟩
    have hns' : m.withRefs s.ns ({o} + (leak + parentRefs ini))
        = m.withRefs s.ns ({o} + (leak + parentRefs ini)) := rfl
    have hon := afterOpen_balanced_iff (A := A) h.system h.handle ht' (hfn o rfl).1 hns'
    exact hon

theorem openWith_balanced_iff (hns : t.ns = s.ns)
    (hA : s.rootObject A = attributes.rootDirectory.bind s.handles) :
    ∃ res s', t.openWith m c (decide (s.mode = .user)) attributes = some (res, s') ∧
      (s.Balanced A res s' ↔ OpensWellWith m s A c attributes) := by
  unfold openWith OpensWellWith
  by_cases hfl : (attributes.duplicateOnFork && !c.supportsDuplicate) = true
  · rw [if_pos hfl, if_pos hfl]
    refine ⟨_, _, rfl, ?_⟩
    unfold Balanced
    rw [dispose_eq]
    dsimp only
    refine ⟨fun hb => hb.1.symm, fun hmd => ⟨hmd.symm, ?_, ?_⟩⟩
    · have := ht.allocated
      have := ht.freed
      omega
    · refine ⟨ht.handles, ?_, ?_, ?_⟩ <;> rw [hns] <;> intros <;> rfl
  · rw [if_neg hfl, if_neg hfl]
    unfold obOpenObjectByName
    cases hrt : attributes.rootDirectory with
    | none =>
      obtain ⟨found, leak, hlk, res, s', hrn, hif⟩ := openFrom_spec h ht (A := A) none nofun
        (by rw [hns]; exact ObManager.withRefs_zero.symm)
      refine ⟨res, s', hrn, hif.trans ?_⟩
      rw [hns] at hlk
      simp only [parentRefs, add_zero] at hlk ⊢
      rw [hlk]
      cases found with
      | error st =>
        simp only [ObManager.gained, zero_add]
        refine ⟨fun hq res ns' heq => ?_, fun ha => ?_⟩
        · cases heq
          exact (quiet_of_error_iff rfl).2 hq
        · exact (quiet_of_error_iff rfl).1 (ha (.error st) _ rfl)
      | ok o =>
        simp only [ObManager.gained]
        refine ⟨fun hc res ns' heq => ?_, fun ha => ?_⟩
        · cases heq
          exact ⟨fun hd => ⟨(hc.1 hd).1, (leavesOne_iff rfl).2 (hc.1 hd).2⟩,
            fun hd => (leavesNothing_iff rfl).2 (hc.2 hd)⟩
        · obtain ⟨hon, hnh⟩ := ha (.ok o) _ rfl
          exact ⟨fun hd => ⟨(hon hd).1, (leavesOne_iff rfl).1 (hon hd).2⟩,
            fun hd => (leavesNothing_iff rfl).1 (hnh hd)⟩
    | some handle =>
      dsimp only
      rcases obReferenceObjectByHandle_spec (t := { t with mode := .kernel }) h.system ht.handles hns
        handle none with ⟨d, x, hh, -, -, heq⟩ | ⟨hnt, st, heq⟩
      · have hp : s.Parent A d := by
          refine .inr ?_
          rw [hA, hrt, bind_some, hh]
        have ht' : s.Started { t with ns := m.withRefs s.ns {d} } (decide (s.mode = .user))
            attributes := ⟨ht.handles, ht.mode, ht.allocated, ht.freed⟩
        obtain ⟨found, leak, -, res, s', hrn, hif⟩ := openFrom_spec h ht' (A := A) (some d)
          (by rintro o ho; cases ho; exact h.system.handles handle d hh) rfl
        rw [heq, bind_some]
        refine ⟨res, s', hrn, hif.trans (iff_of_false ?_ (by rw [hh]; simp))⟩
        have hme : d ∈ leak + parentRefs (some d) := by simp [parentRefs]
        cases found with
        | error st => exact fun hq => hq.2 d hme hp
        | ok o =>
          rintro ⟨hy, hno⟩
          by_cases hdl : c.openMethod = .success ∧ Delivers c.handle c.copyOut
          · exact (hy hdl).2.2 d hme hp
          · exact (hno hdl).2 d hme hp
      · rw [heq, bind_some]
        have hnn : s.handles handle = none := by
          cases hd : s.handles handle with
          | none => rfl
          | some d =>
            obtain ⟨x, hx, -⟩ := h.system.handles handle d hd
            exact absurd (by simp) (hnt d x hd hx)
        have hz : t = { t with ns := m.withRefs s.ns 0 } := by
          rw [ObManager.withRefs_zero, ← hns]
        refine ⟨_, _, rfl, iff_of_true ?_ hnn⟩
        rw [hz]
        exact (balanced_fail_iff ht st).2 quiet_zero

end

/-- The calls that do not reach the defects of `ExOpenObjectUserCall`. -/
def OpensWell (m : ObManager O) (s : Services O) (c : OpenCall) : Prop :=
  ∀ given attributes, c.attributes = some given →
    (s.takeAttributes given c.copying).1 = .ok attributes →
    OpensWellWith m s c.attributes c attributes

theorem exOpenObjectUserCall_balanced_iff (h : OpenPromised m s c) :
    ∃ res s', s.exOpenObjectUserCall m c = some (res, s') ∧
      (s.Balanced c.attributes res s' ↔ OpensWell m s c) := by
  unfold exOpenObjectUserCall OpensWell
  cases har : c.attributes with
  | none =>
    refine ⟨_, _, rfl, iff_of_true (balanced_of_buffers (Nat.add_comm ..) .invalidParameter) ?_⟩
    rintro given attributes hnn
    cases hnn
  | some given =>
    dsimp only
    rcases takeAttributes_spec s given c.copying with
      ⟨status, alc, freed, heq, hcount⟩ | ⟨copied, heq, hrt⟩
    · rw [heq]
      refine ⟨_, _, rfl, iff_of_true (balanced_of_buffers hcount status) ?_⟩
      rintro given' attributes hgiven htk
      cases hgiven
      rw [heq] at htk
      cases htk
    · rw [heq]
      obtain ⟨ht, hA⟩ := s.started_copied hrt
      obtain ⟨res, s', hrn, hif⟩ := openWith_balanced_iff h ht rfl hA
      refine ⟨res, s', hrn, hif.trans ⟨?_, fun ha => ha given copied rfl (by rw [heq])⟩⟩
      rintro hw given' attributes hgiven htk
      cases hgiven
      rw [heq] at htk
      cases htk
      exact hw

end

/-! ## The two services -/

/-- An empty root directory. -/
def emptyRoot : ObManager Nat where
  rootDirectory := 0
  fileSystemRootLink := none
  parse _ := none
  created _ := .file

/-- A thread of a process without handles, in user mode. -/
def freshServices : Services Nat where
  ns := ⟨fun o => if o = 0 then some ⟨true, none, none, 1, .directory [] 0⟩ else none, []⟩
  handles _ := none
  mode := .user
  allocated := 0
  freed := 0

/-- A call in which nothing fails. -/
def createEvent (attributes : Option ObjectAttributes) : CreateCall Nat where
  attributes := attributes
  copying := ⟨.success, .success, true, .success⟩
  type := .other 0
  supportsDuplicate := false
  bodySize := 24
  object := 1
  memory := true
  room := true
  createMethod := .success
  handle := .ok 4
  copyOut := .success

/-- A call that asks for duplication, which the type does not support. -/
def openEvent : OpenCall where
  attributes := some ⟨none, none, 0, false, false, false, true⟩
  copying := ⟨.success, .success, true, .success⟩
  type := .other 0
  supportsDuplicate := false
  openMethod := .success
  handle := .ok 4
  copyOut := .success

theorem freshServices_promised : freshServices.Promised emptyRoot where
  wellFormed :=
    { root := ⟨_, rfl, .inr rfl⟩
      fileSystemRoot := fun o h => by cases h
      children := fun d cs count h c hc => by
        match d, h with
        | 0, h => cases h; cases hc
        | _ + 1, h => cases h
      parse := fun type mth o path lc new rest h => by cases h }
  root := rfl
  handles := fun handle o h => by cases h
  created := fun o h => by cases h

theorem createEvent_promised (attributes : Option ObjectAttributes) :
    CreatePromised emptyRoot freshServices (createEvent attributes) where
  system := freshServices_promised
  object := rfl
  parse := fun type mth p path lc rest h => by cases h
  handle := fun handle h => rfl

end Boron.Ex.Services
