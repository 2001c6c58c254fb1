import Mathlib.Algebra.Order.Group.Multiset
import Boron.Ob.PathHops

/-! # The references that a path lookup leaves

A lookup only moves references: in every state that it passes through, the objects are those of the
start with some references more (`withRefs`). So a lookup comes down to what it finds and to the
references that it leaks (`Does`). There is one rule for each way in which a turn of the loop can go,
and `loopDoes` compares the whole loop with the hops. -/

namespace Boron.Ob

open Function Option

variable {O : Type} [DecidableEq O]

/-! ## References in hand -/

namespace Namespace

/-- The reference count of an object; one that does not exist has none. -/
def references (ns : Namespace O) (o : O) : Nat := ((ns.object o).map Object.pointerCount).getD 0

omit [DecidableEq O] in
theorem eq_of_objects {ns ns' : Namespace O} (hp : ns.reaperList = ns'.reaperList)
    (h : ∀ o, ns.object o = ns'.object o) : ns = ns' := by
  cases ns
  cases ns'
  simp only at h hp
  rw [hp, funext h]

/-- The entry that a lookup in a directory finds is the first one that is named as the first
component. -/
theorem obpLookUpDirectoryEntry_eq (ns : Namespace O) (cs : List O) {path : Name} (hp : path ≠ []) :
    ns.obpLookUpDirectoryEntry cs path
      = match cs.find? fun c => ns.objectName c = some (component path) with
        | none => (none, ns)
        | some c =>
          (some (c, Namespace.obMatchPathName (component path) path),
            ns.obReferenceObjectByPointer c) := by
  have hsm : (fun c => (ns.objectName c).any fun name =>
      Namespace.obMatchPathName name path ≠ 0)
        = fun c => decide (ns.objectName c = some (component path)) := by
    funext c
    cases h : ns.objectName c with
    | none => simp
    | some name => simp [obMatchPathName_ne_zero_iff hp]
  unfold Namespace.obpLookUpDirectoryEntry
  rw [hsm]
  cases hfn : cs.find? fun c => decide (ns.objectName c = some (component path)) with
  | none => rfl
  | some c =>
    have hnm : ns.objectName c = some (component path) := by simpa using List.find?_some hfn
    simp only [hnm, getD_some]

end Namespace

namespace ObManager

variable (m : ObManager O) (ns : Namespace O)

/-- The objects with some references more. -/
def withRefs (refs : Multiset O) : Namespace O :=
  { ns with
    object := fun o =>
      match ns.object o with
      | some h => some { h with pointerCount := h.pointerCount + refs.count o }
      | none =>
        if refs.count o = 0 then none else some ⟨false, none, none, refs.count o, m.created o⟩ }

variable {m ns} {refs : Multiset O} {o : O}

theorem withRefs_zero : m.withRefs ns 0 = ns := by
  refine Namespace.eq_of_objects rfl fun o => ?_
  unfold withRefs
  cases h : ns.object o with
  | none => simp [h]
  | some h' => simp [h]

theorem objectName_withRefs : (m.withRefs ns refs).objectName o = ns.objectName o := by
  unfold Namespace.objectName withRefs
  cases h : ns.object o with
  | none =>
    simp only [h]
    split <;> rfl
  | some h' => simp only [h, bind_some]

theorem references_withRefs : (m.withRefs ns refs).references o = ns.references o + refs.count o := by
  unfold Namespace.references withRefs
  cases h : ns.object o with
  | none =>
    simp only [h]
    split
    · next h0 => simp [h0]
    · simp
  | some h' => simp [h]

/-- An object that is referenced can be read. -/
theorem object_withRefs_of_mem (m : ObManager O) (ns : Namespace O) (h : o ∈ refs) :
    ∃ x, (m.withRefs ns refs).object o = some x ∧ x.body = m.body ns o := by
  unfold withRefs body
  cases hx : ns.object o with
  | none =>
    have hcount : refs.count o ≠ 0 := Multiset.count_ne_zero.2 h
    simp only [hx, hcount, if_false]
    exact ⟨_, rfl, rfl⟩
  | some x =>
    simp only [hx]
    exact ⟨_, rfl, rfl⟩

theorem object_withRefs_of_some {x : Object O} (h : ns.object o = some x) :
    (m.withRefs ns refs).object o = some { x with pointerCount := x.pointerCount + refs.count o } := by
  simp only [withRefs, h]

theorem object_withRefs_of_none (h : ns.object o = none) : (m.withRefs ns refs).object o
      = if refs.count o = 0 then none else some ⟨false, none, none, refs.count o, m.created o⟩ := by
  simp only [withRefs, h]

theorem object_withRefs_cons_of_ne {p : O} (h : p ≠ o) :
    (m.withRefs ns (o ::ₘ refs)).object p = (m.withRefs ns refs).object p := by
  simp only [withRefs, Multiset.count_cons_of_ne h]

theorem receive_withRefs : m.receive (m.withRefs ns refs) o = m.withRefs ns (o ::ₘ refs) := by
  refine Namespace.eq_of_objects (by unfold receive; split <;> rfl) fun p => ?_
  unfold receive Namespace.obReferenceObjectByPointer Namespace.modify Namespace.set
  by_cases hp : p = o
  · subst hp
    cases h : ns.object p with
    | none =>
      rw [object_withRefs_of_none h, object_withRefs_of_none h, Multiset.count_cons_self]
      by_cases h0 : refs.count p = 0
      · simp only [h0, if_true, isSome_none, Bool.false_eq_true, if_false,
          update_self, Nat.zero_add, Nat.one_ne_zero]
      · simp only [h0, if_false, isSome_some, if_true, map_some, update_self, Nat.add_one_ne_zero]
    | some x =>
      rw [object_withRefs_of_some h, object_withRefs_of_some h, Multiset.count_cons_self]
      simp only [isSome_some, if_true, map_some, update_self, Nat.add_assoc]
  · rw [object_withRefs_cons_of_ne hp]
    split <;> exact update_of_ne hp _ _

theorem reference_withRefs (h : (ns.object o).isSome = true) :
    (m.withRefs ns refs).obReferenceObjectByPointer o = m.withRefs ns (o ::ₘ refs) := by
  rw [← receive_withRefs]
  unfold receive
  rw [if_pos]
  obtain ⟨x, hx⟩ := isSome_iff_exists.1 h
  simp [withRefs, hx]

theorem reference_withRefs_of_mem (h : o ∈ refs) :
    (m.withRefs ns refs).obReferenceObjectByPointer o = m.withRefs ns (o ::ₘ refs) := by
  obtain ⟨x, hx, -⟩ := object_withRefs_of_mem m ns h
  rw [← receive_withRefs]
  unfold receive
  rw [if_pos (by rw [hx]; rfl)]

/-- A reference that comes and goes leaves no trace: an object that was created for it is deleted. -/
theorem dereference_withRefs (h : m.Findable ns o) :
    (m.withRefs ns (o ::ₘ refs)).obDereferenceObject o false = some (m.withRefs ns refs) := by
  have hother : ∀ p, p ≠ o → ∀ y, ((m.withRefs ns (o ::ₘ refs)).set o y).object p
      = (m.withRefs ns refs).object p := by
    intro p hp y
    rw [← object_withRefs_cons_of_ne hp]
    exact update_of_ne hp _ _
  unfold Namespace.obDereferenceObject
  rcases h with ⟨x, hx, ha⟩ | ⟨hnn, -⟩
  · have hkp : x.pointerCount + (o ::ₘ refs).count o ≠ 1 ∨ x.permanent = true := by
      rw [Multiset.count_cons_self]
      rcases ha with h | h
      · exact .inl (by omega)
      · exact .inr h
    have hcount : x.pointerCount + (o ::ₘ refs).count o ≠ 0 := by
      rw [Multiset.count_cons_self]
      omega
    rw [object_withRefs_of_some hx]
    simp only [bind_some, if_neg hcount, if_pos hkp]
    refine congrArg some (Namespace.eq_of_objects rfl fun p => ?_)
    by_cases hp : p = o
    · subst hp
      simp only [Namespace.modify, Namespace.set, update_self,
        object_withRefs_of_some hx, map_some, Multiset.count_cons_self]
      rfl
    · exact hother p hp _
  · rw [object_withRefs_of_none hnn]
    simp only [Multiset.count_cons_self, Nat.add_one_ne_zero, if_false, bind_some,
      Bool.false_eq_true, or_false]
    by_cases h0 : refs.count o = 0
    · rw [if_neg (by omega)]
      have hdl : ((m.withRefs ns (o ::ₘ refs)).modify o
          fun h => { h with pointerCount := h.pointerCount - 1 }).obpDeleteObject o
            = (m.withRefs ns (o ::ₘ refs)).set o none := by
        simp only [Namespace.obpDeleteObject, Namespace.modify, Namespace.set,
          update_self, object_withRefs_of_none hnn, Multiset.count_cons_self,
          Nat.add_one_ne_zero, if_false, map_some, any_some, Bool.false_eq_true,
          update_idem]
      rw [hdl]
      refine congrArg some (Namespace.eq_of_objects rfl fun p => ?_)
      by_cases hp : p = o
      · subst hp
        rw [object_withRefs_of_none hnn, if_pos h0]
        exact update_self ..
      · exact hother p hp _
    · rw [if_pos (by omega)]
      refine congrArg some (Namespace.eq_of_objects rfl fun p => ?_)
      by_cases hp : p = o
      · subst hp
        simp only [Namespace.modify, Namespace.set, update_self,
          object_withRefs_of_none hnn, Multiset.count_cons_self, Nat.add_one_ne_zero, if_false,
          map_some, h0]
        rfl
      · exact hother p hp _

/-! ## What a lookup does -/

/-- The reference that comes with an answer. -/
def gained : Except ObStatus O → Multiset O
  | .ok o => {o}
  | .error _ => 0

/-- Starting with the references `held`, the code finds what `finds` says, and it leaks no reference
exactly if `calm` holds. -/
def Does (m : ObManager O) (ns : Namespace O) (run : Namespace O → LookedUp O) (held : Multiset O)
    (finds : O → Prop) (calm : Prop) : Prop :=
  ∀ refs : Multiset O, ∃ (result : Except ObStatus O) (leak : Multiset O),
    run (m.withRefs ns (held + refs)) = some (result, m.withRefs ns (gained result + (leak + refs))) ∧
      (∀ p, result = .ok p ↔ finds p) ∧ (leak = 0 ↔ calm) ∧ ∀ p ∈ leak, m.Findable ns p

theorem terminateParsing_withRefs {expectedType : Option ObjectType} (h : m.Findable ns o) :
    terminateParsing expectedType o (m.withRefs ns ({o} + refs))
      = if ∀ type ∈ expectedType, type = (m.body ns o).type then
          some (.ok o, m.withRefs ns ({o} + refs))
        else some (.error .typeMismatch, m.withRefs ns refs) := by
  obtain ⟨x, hx, hb⟩ := object_withRefs_of_mem m ns (Multiset.mem_cons_self o refs)
  rw [Multiset.singleton_add]
  unfold terminateParsing
  rw [hx, bind_some, dereference_withRefs h, hb]
  cases expectedType with
  | none => simp
  | some type => by_cases hy : type = (m.body ns o).type <;> simp [hy]

section

variable {σ : Type} {run next : Namespace O → LookedUp O} {hop : σ → σ → Prop} {x y : σ}
  {stops : σ → O → Prop} {calmAt : σ → Prop} {p : O} {n : Nat}

/-- The last turn of the loop, with an error. -/
theorem Does.of_error
    (hrn : ∀ refs : Multiset O, ∃ (st : ObStatus) (leak : Multiset O), run (m.withRefs ns ({o} + refs))
      = some (.error st, m.withRefs ns (leak + refs)) ∧ (leak = 0 ↔ calmAt x) ∧
        ∀ p ∈ leak, m.Findable ns p)
    (hh : ∀ z, ¬ hop x z) (hst : ∀ p, ¬ stops x p) :
    m.Does ns run {o} (fun p => Within hop (n + 1) x (stops · p)) (Settles hop (n + 1) calmAt x) := by
  intro refs
  obtain ⟨st, leak, heq, hlk, hfn⟩ := hrn refs
  refine ⟨.error st, leak, by rw [heq]; simp [gained], fun p => ?_, ?_, hfn⟩
  · simp [within_succ, hst, hh]
  · simp [settles_succ, hh, hlk]

/-- The last turn of the loop, with a type check. -/
theorem Does.of_end (expectedType : Option ObjectType) (hp : m.Findable ns p)
    (hrn : ∀ refs : Multiset O, ∃ leak : Multiset O, run (m.withRefs ns ({o} + refs))
      = terminateParsing expectedType p (m.withRefs ns ({p} + (leak + refs))) ∧
        (leak = 0 ↔ calmAt x) ∧ ∀ p ∈ leak, m.Findable ns p)
    (hh : ∀ z, ¬ hop x z)
    (hst : ∀ q, stops x q ↔ q = p ∧ ∀ type ∈ expectedType, type = (m.body ns q).type) :
    m.Does ns run {o} (fun p => Within hop (n + 1) x (stops · p)) (Settles hop (n + 1) calmAt x) := by
  intro refs
  obtain ⟨leak, heq, hlk, hfn⟩ := hrn refs
  rw [terminateParsing_withRefs hp] at heq
  by_cases hy : ∀ type ∈ expectedType, type = (m.body ns p).type
  · rw [if_pos hy] at heq
    refine ⟨.ok p, leak, heq, fun q => ?_, ?_, hfn⟩
    · simp only [within_succ, hst, hh, false_and, exists_false, or_false, Except.ok.injEq]
      constructor
      · rintro rfl
        exact ⟨rfl, hy⟩
      · rintro ⟨rfl, -⟩
        rfl
    · simp [settles_succ, hh, hlk]
  · rw [if_neg hy] at heq
    refine ⟨.error .typeMismatch, leak, by rw [heq]; simp [gained], fun q => ?_, ?_, hfn⟩
    · simp only [within_succ, hst, hh, false_and, exists_false, or_false, reduceCtorEq, false_iff]
      rintro ⟨rfl, h⟩
      exact hy h
    · simp [settles_succ, hh, hlk]

/-- A turn of the loop that goes on. -/
theorem Does.of_hop (hrn : ∀ refs : Multiset O, ∃ leak : Multiset O, run (m.withRefs ns ({o} + refs))
      = next (m.withRefs ns ({p} + (leak + refs))) ∧ (leak = 0 ↔ calmAt x) ∧
        ∀ p ∈ leak, m.Findable ns p)
    (hh : ∀ z, hop x z ↔ z = y) (hst : ∀ p, ¬ stops x p)
    (hnext : m.Does ns next {p} (fun p => Within hop n y (stops · p)) (Settles hop n calmAt y)) :
    m.Does ns run {o} (fun p => Within hop (n + 1) x (stops · p)) (Settles hop (n + 1) calmAt x) := by
  intro refs
  obtain ⟨leak, heq, hlk, hfn⟩ := hrn refs
  obtain ⟨res, leak', heq', hfs, hlk', hfn'⟩ := hnext (leak + refs)
  refine ⟨res, leak' + leak, ?_, fun p => ?_, ?_, fun p hp => ?_⟩
  · rw [heq, heq', add_assoc]
  · simp [hfs, within_succ, hst, hh]
  · have hz : leak' + leak = 0 ↔ leak' = 0 ∧ leak = 0 := by
      simp only [← Multiset.card_eq_zero, Multiset.card_add]
      omega
    rw [hz, hlk, hlk', settles_succ]
    simp [hh, and_comm]
  · rcases Multiset.mem_add.1 hp with h | h
    · exact hfn' p h
    · exact hfn p h

end

/-! ## The loop -/

section

variable {lookUp : Name → Namespace O → LookedUp O} {resolves : Name → O → Prop}
  {calmTarget : Name → Prop} {expectedType : Option ObjectType} {openSymlink : Bool}
  {loopCount depth : Nat} {path : Name}

variable (m ns lookUp resolves calmTarget expectedType openSymlink loopCount) in
/-- The loop does what the hops say, with `depth` turns left. -/
def LoopDoes (depth : Nat) (o : O) (path : Name) : Prop :=
  m.Does ns (m.lookUpLoop lookUp expectedType openSymlink loopCount depth o path) {o}
    (fun p => Within (m.Hop ns resolves openSymlink loopCount) depth (o, path)
      (m.Stops ns expectedType openSymlink loopCount · p))
    (Settles (m.Hop ns resolves openSymlink loopCount) depth
      (m.CalmAt ns calmTarget openSymlink loopCount) (o, path))

/-- What a foreign `Parse` method answers, and the references it takes. -/
def foreignAnswer (m : ObManager O) (ns : Namespace O) :
    Except ObStatus (O × Option Name) → Option (Except ObStatus (O × Option Name) × Namespace O)
  | .error status => some (.error status, ns)
  | .ok (new, rest) => some (.ok (new, rest), m.receive ns new)

section

variable (ho : m.Findable ns o)
include ho

/-- The answer of a `Parse` method, with the current object among the references. -/
theorem afterParse_error (next : O → Name → Namespace O → LookedUp O) (st : ObStatus) :
    afterParse next expectedType o (.error st, m.withRefs ns ({o} + refs))
      = some (.error st, m.withRefs ns refs) := by
  simp only [afterParse, Multiset.singleton_add, dereference_withRefs ho, map_some]

theorem afterParse_some (next : O → Name → Namespace O → LookedUp O) (new : O) (rest : Name) :
    afterParse next expectedType o (.ok (new, some rest), m.withRefs ns ({new} + ({o} + refs)))
      = next new rest (m.withRefs ns ({new} + refs)) := by
  simp only [afterParse, Multiset.singleton_add, Multiset.cons_swap new o, dereference_withRefs ho,
    bind_some]

variable (ih : ∀ p path, m.Findable ns p → m.LoopDoes ns lookUp resolves calmTarget expectedType
  openSymlink loopCount depth p path)
include ih

theorem loopDoes_directory (hw : m.WellFormed ns) {cs : List O} {count : Int}
    (hb : m.body ns o = .directory cs count) :
    m.LoopDoes ns lookUp resolves calmTarget expectedType openSymlink loopCount (depth + 1) o path := by
  have hcl : m.CalmAt ns calmTarget openSymlink loopCount (o, path) :=
    calmAt_of_own (by rw [hb]; simp [Body.type]) (by rw [hb]; rfl)
  have hy : (m.body ns o).type = .directory := by rw [hb]; rfl
  have htr : ∀ refs : Multiset O, m.lookUpLoop lookUp expectedType openSymlink loopCount (depth + 1)
      o path (m.withRefs ns ({o} + refs))
        = enterDirectory (m.lookUpLoop lookUp expectedType openSymlink loopCount depth) o cs
            path (m.withRefs ns ({o} + refs)) := by
    intro refs
    obtain ⟨x, hx, hxb⟩ :=
      object_withRefs_of_mem m ns (Multiset.mem_cons_self o refs)
    rw [Multiset.singleton_add, lookUpLoop, hx, bind_some]
    simp only [Object.directory, hxb, hb]
  by_cases hp : path = []
  · refine Does.of_end none ho (fun refs => ⟨0, ?_, by simp [hcl], by simp⟩) ?_ ?_
    · rw [htr, enterDirectory, if_pos hp, zero_add, terminateParsing_withRefs ho]
      simp
    · intro z
      rw [hop_directory_iff hb]
      exact fun h => h.1 hp
    · intro q
      rw [stops_directory_iff hy]
      simp [hp]
  · have hst : ∀ p, ¬ m.Stops ns expectedType openSymlink loopCount (o, path) p := by
      intro p
      rw [stops_directory_iff hy]
      exact fun h => hp h.1
    cases hfn : cs.find? fun c => ns.objectName c = some (component path) with
    | none =>
      refine Does.of_error (fun refs => ⟨.nameNotFound, 0, ?_, by simp [hcl], by simp⟩) (fun z => ?_) hst
      · rw [htr, enterDirectory, if_neg hp, Namespace.obpLookUpDirectoryEntry_eq _ _ hp]
        simp only [objectName_withRefs, hfn, Multiset.singleton_add, dereference_withRefs ho,
          map_some, zero_add]
      · rw [hop_directory_iff hb]
        simp [hfn]
    | some c =>
      have hc : ns.Alive c := hw.children o cs count hb c (List.mem_of_find?_eq_some hfn)
      refine Does.of_hop (fun refs => ⟨0, ?_, by simp [hcl], by simp⟩) (fun z => ?_) hst
        (ih c (afterComponent path) (.inl hc))
      · rw [htr, enterDirectory, if_neg hp, Namespace.obpLookUpDirectoryEntry_eq _ _ hp]
        obtain ⟨x, hx, -⟩ := hc
        have hsm : (ns.object c).isSome = true := by rw [hx]; rfl
        simp only [objectName_withRefs, hfn, reference_withRefs hsm, Multiset.singleton_add,
          Multiset.cons_swap c o, dereference_withRefs ho, bind_some, zero_add,
          drop_obMatchPathName]
      · rw [hop_directory_iff hb]
        simp [hp, hfn]

theorem loopDoes_link {dest : Option Name} (hb : m.body ns o = .symbolicLink dest)
    (hlp : ∀ dest, m.Does ns (lookUp dest) 0 (resolves dest) (calmTarget dest))
    (hrl : ∀ dest p, resolves dest p → m.Findable ns p) :
    m.LoopDoes ns lookUp resolves calmTarget expectedType openSymlink loopCount (depth + 1) o path := by
  have hfs : ∀ new, ¬ m.Finishes ns loopCount (o, path) new :=
    finishes_of_own (by rw [hb]; rfl)
  have htr : ∀ refs : Multiset O, m.lookUpLoop lookUp expectedType openSymlink loopCount (depth + 1)
      o path (m.withRefs ns ({o} + refs)) = if path = [] ∧ openSymlink = true then
            terminateParsing expectedType o (m.withRefs ns ({o} + refs))
          else
            (obpParseSymbolicLink lookUp dest o path (loopCount + 1)
              (m.withRefs ns ({o} + refs))).bind (afterParse
                (m.lookUpLoop lookUp expectedType openSymlink loopCount depth) expectedType o) := by
    intro refs
    obtain ⟨x, hx, hxb⟩ :=
      object_withRefs_of_mem m ns (Multiset.mem_cons_self o refs)
    rw [Multiset.singleton_add, lookUpLoop, hx, bind_some]
    simp only [Object.directory, hxb, hb, Body.type, true_and, parseObject, parseMethod]
  by_cases hon : path = [] ∧ openSymlink = true
  · have hc : m.CalmAt ns calmTarget openSymlink loopCount (o, path) :=
      ⟨fun _ _ hnt => absurd hon hnt, hfs⟩
    refine Does.of_end expectedType ho (fun refs => ⟨0, ?_, by simp [hc], by simp⟩) ?_ ?_
    · rw [htr, if_pos hon, zero_add]
    · intro z
      rw [hop_link_iff hb]
      exact fun h => h.1 hon
    · intro q
      rw [stops_link_iff hb]
      simp only [hon.1, hon.2, and_self, true_and]
  · have hst : ∀ p, ¬ m.Stops ns expectedType openSymlink loopCount (o, path) p := by
      intro p
      rw [stops_link_iff hb]
      exact fun h => hon h.1
    cases dest with
    | none =>
      have hc : m.CalmAt ns calmTarget openSymlink loopCount (o, path) := by
        refine ⟨fun d hd => ?_, hfs⟩
        rw [hb] at hd
        cases hd
      refine Does.of_error (fun refs => ⟨.unassignedLink, 0, ?_, by simp [hc], by simp⟩) (fun z => ?_)
        hst
      · rw [htr, if_neg hon, zero_add, obpParseSymbolicLink, bind_some, afterParse_error ho]
      · rw [hop_link_iff hb]
        simp
    | some dest =>
      have hc : m.CalmAt ns calmTarget openSymlink loopCount (o, path) ↔ calmTarget dest := by
        refine ⟨fun h => h.1 dest hb hon, fun h => ⟨fun d hd _ => ?_, hfs⟩⟩
        rw [hb] at hd
        cases hd
        exact h
      have ha : ∀ refs : Multiset O, ∃ (res : Except ObStatus O) (leak : Multiset O),
          m.lookUpLoop lookUp expectedType openSymlink loopCount (depth + 1) o path
            (m.withRefs ns ({o} + refs))
              = afterParse (m.lookUpLoop lookUp expectedType openSymlink loopCount depth)
                  expectedType o (res.map fun p => (p, some path),
                    m.withRefs ns (gained res + ({o} + (leak + refs)))) ∧
            (∀ p, res = .ok p ↔ resolves dest p) ∧
              (leak = 0 ↔ m.CalmAt ns calmTarget openSymlink loopCount (o, path)) ∧
              ∀ p ∈ leak, m.Findable ns p := by
        intro refs
        obtain ⟨res, leak, heq, hfn, hlk, hfb⟩ := hlp dest ({o} + refs)
        refine ⟨res, leak, ?_, hfn, by rw [hlk, hc], hfb⟩
        rw [zero_add] at heq
        rw [htr, if_neg hon]
        simp only [obpParseSymbolicLink, heq, map_some, bind_some, add_left_comm leak {o} refs]
      by_cases hrs : ∃ p, resolves dest p
      · obtain ⟨p, hp⟩ := hrs
        refine Does.of_hop (fun refs => ?_) (fun z => ?_) hst (ih p path (hrl dest p hp))
        · obtain ⟨res, leak, heq, hfn, hlk⟩ := ha refs
          obtain rfl := (hfn p).2 hp
          refine ⟨leak, ?_, hlk⟩
          rw [heq]
          exact afterParse_some ho _ _ _
        · rw [hop_link_iff hb]
          constructor
          · rintro ⟨-, d, new, hd, hw, rfl⟩
            cases hd
            obtain ⟨res, -, -, hfn, -, -⟩ := hlp dest 0
            have hsm := ((hfn p).2 hp).symm.trans ((hfn new).2 hw)
            cases hsm
            rfl
          · rintro rfl
            exact ⟨hon, dest, p, rfl, hp, rfl⟩
      · refine Does.of_error (fun refs => ?_) (fun z => ?_) hst
        · obtain ⟨res, leak, heq, hfn, hlk⟩ := ha refs
          cases res with
          | ok p => exact absurd ⟨p, (hfn p).1 rfl⟩ hrs
          | error st =>
            refine ⟨st, leak, ?_, hlk⟩
            rw [heq]
            simp only [gained, zero_add]
            exact afterParse_error ho _ _
        · rw [hop_link_iff hb]
          rintro ⟨-, d, new, hd, hw, -⟩
          cases hd
          exact hrs ⟨new, hw⟩

/-- A turn with an object of another type. -/
theorem loopDoes_foreign (hwf : m.WellFormed ns) (hdr : (m.body ns o).type ≠ .directory)
    (hln : (m.body ns o).type ≠ .symbolicLink) :
    m.LoopDoes ns lookUp resolves calmTarget expectedType openSymlink loopCount (depth + 1) o path := by
  have htr : ∀ refs : Multiset O, m.lookUpLoop lookUp expectedType openSymlink loopCount (depth + 1)
      o path (m.withRefs ns ({o} + refs))
        = m.parseObject lookUp (m.lookUpLoop lookUp expectedType openSymlink loopCount depth)
            expectedType loopCount o (m.body ns o) path (m.withRefs ns ({o} + refs)) := by
    intro refs
    obtain ⟨x, hx, hxb⟩ := object_withRefs_of_mem m ns (Multiset.mem_cons_self o refs)
    rw [Multiset.singleton_add, lookUpLoop, hx, bind_some]
    cases hb : m.body ns o with
    | directory => rw [hb] at hdr; exact absurd rfl hdr
    | symbolicLink => rw [hb] at hln; exact absurd rfl hln
    | file => simp [Object.directory, hxb, hb, Body.type]
    | other => simp [Object.directory, hxb, hb, Body.type]
  have hmt : m.parseMethod lookUp (m.body ns o)
      = (m.foreignParse (m.body ns o)).map fun parse o path loopCount ns =>
          m.foreignAnswer ns (parse o path loopCount) := by
    cases hb : m.body ns o with
    | symbolicLink => rw [hb] at hln; exact absurd rfl hln
    | _ => rfl
  cases hp : m.foreignParse (m.body ns o) with
  | none =>
    have hc : m.CalmAt ns calmTarget openSymlink loopCount (o, path) :=
      calmAt_of_own hln hp
    have hh : ∀ z, ¬ m.Hop ns resolves openSymlink loopCount (o, path) z := by
      intro z hop
      obtain ⟨mth, new, rest, hmt', -⟩ := (hop_foreign_iff hdr hln z).1 hop
      rw [hp] at hmt'
      cases hmt'
    by_cases hpt : path = []
    · refine Does.of_end expectedType ho (fun refs => ⟨0, ?_, by simp [hc], by simp⟩) hh (fun q => ?_)
      · rw [htr, parseObject, hmt, hp, zero_add]
        simp [hpt]
      · rw [stops_leaf_iff hdr hln hp]
        simp only [hpt, true_and]
    · refine Does.of_error (fun refs => ⟨.pathInvalid, 0, ?_, by simp [hc], by simp⟩) hh (fun q => ?_)
      · rw [htr, parseObject, hmt, hp, zero_add]
        simp [hpt, dereference_withRefs ho]
      · rw [stops_leaf_iff hdr hln hp]
        exact fun h => hpt h.1
  | some mth =>
    have hfn : ∀ new, m.Finishes ns loopCount (o, path) new ↔
        mth o path (loopCount + 1) = .ok (new, none) := by
      intro new
      refine ⟨?_, fun hok => ⟨mth, hp, hok⟩⟩
      rintro ⟨mth', h, hok⟩
      dsimp only at h hok
      rw [hp] at h
      cases h
      exact hok
    have hh : ∀ z, m.Hop ns resolves openSymlink loopCount (o, path) z ↔
        ∃ new rest, mth o path (loopCount + 1) = .ok (new, some rest) ∧ z = (new, rest) := by
      intro z
      refine (hop_foreign_iff hdr hln z).trans ⟨?_, fun ⟨new, rest, hok⟩ =>
        ⟨mth, new, rest, hp, hok⟩⟩
      rintro ⟨mth', new, rest, h, hok⟩
      rw [hp] at h
      cases h
      exact ⟨new, rest, hok⟩
    have hc : m.CalmAt ns calmTarget openSymlink loopCount (o, path) ↔
        ∀ new, mth o path (loopCount + 1) ≠ .ok (new, none) := by
      simp only [CalmAt, hfn, ne_eq]
      refine and_iff_right fun dest hb => ?_
      rw [hb] at hln
      exact absurd rfl hln
    cases ha : mth o path (loopCount + 1) with
    | error st =>
      refine Does.of_error (fun refs => ⟨st, 0, ?_, by simp [hc, ha], by simp⟩)
        (fun z => ?_) (fun q => ?_)
      · rw [htr, parseObject, hmt, hp, zero_add]
        simp only [map_some, ha, bind_some, foreignAnswer, afterParse_error ho]
      · rw [hh]
        simp [ha]
      · rw [stops_parse_iff hdr hln hp]
        simp [ha]
    | ok ans =>
      obtain ⟨new, rest⟩ := ans
      have hw : m.Findable ns new := findable_of_foreignParse hwf hp ha
      have hrn : ∀ refs : Multiset O, m.lookUpLoop lookUp expectedType openSymlink loopCount
          (depth + 1) o path (m.withRefs ns ({o} + refs))
            = afterParse (m.lookUpLoop lookUp expectedType openSymlink loopCount depth)
                expectedType o (.ok (new, rest), m.withRefs ns ({new} + ({o} + refs))) := by
        intro refs
        rw [htr, parseObject, hmt, hp]
        simp only [map_some, ha, bind_some, foreignAnswer, receive_withRefs, Multiset.singleton_add]
      cases rest with
      | none =>
        -- the reference on the current object is the one that leaks
        refine Does.of_end expectedType hw (fun refs => ⟨{o}, hrn refs, ?_, by simp [ho]⟩) (fun z => ?_)
          (fun q => ?_)
        · simp [hc, ha]
        · rw [hh]
          simp [ha]
        · rw [stops_parse_iff hdr hln hp, ha]
          simp [eq_comm]
      | some rest =>
        refine Does.of_hop (fun refs => ⟨0, ?_, by simp [hc, ha], by simp⟩) (fun z => ?_)
          (fun q => ?_) (ih new rest hw)
        · rw [hrn, zero_add, afterParse_some ho]
        · rw [hh]
          simp [ha]
        · rw [stops_parse_iff hdr hln hp]
          simp [ha]

end

/-- The loop of a lookup, if the lookups of links' targets do what they should. -/
theorem loopDoes (hw : m.WellFormed ns)
    (hlk : ∀ dest, m.Does ns (lookUp dest) 0 (resolves dest) (calmTarget dest))
    (hrs : ∀ dest p, resolves dest p → m.Findable ns p) (depth : Nat) (o : O) (path : Name)
    (ho : m.Findable ns o) :
    m.LoopDoes ns lookUp resolves calmTarget expectedType openSymlink loopCount depth o path := by
  induction depth generalizing o path with
  | zero =>
    intro refs
    refine ⟨.error .pathTooDeep, {o}, by simp [lookUpLoop, gained], fun p => ?_, ?_, by simp [ho]⟩
    · simp [not_within_zero]
    · simp [not_settles_zero]
  | succ depth ih =>
    by_cases hdr : (m.body ns o).type = .directory
    · cases hb : m.body ns o with
      | directory cs count =>
        exact loopDoes_directory ho ih hw hb
      | _ => rw [hb] at hdr; cases hdr
    · by_cases hln : (m.body ns o).type = .symbolicLink
      · cases hb : m.body ns o with
        | symbolicLink dest =>
          exact loopDoes_link ho ih hb hlk hrs
        | _ => rw [hb] at hln; cases hln
      · exact loopDoes_foreign ho ih hw hdr hln

end

end ObManager

end Boron.Ob
