import Boron.Ob.PathReferences

/-! # When a path lookup is right

A lookup starts at an object, and the lookup of a link's target starts at the root with one more on
the loop count; an induction over the loop count gives what both do. `lookUp_right_iff` says exactly
when a lookup is right: no hop count is used up, no foreign method finishes the path, and the path
does not end in a directory when another type is expected. -/

namespace Boron.Ob

open Option

variable {O : Type} [DecidableEq O]

namespace ObManager

variable {m : ObManager O} {ns : Namespace O} {refs : Multiset O} {o : O}

/-! ## Whole lookups -/

/-- A lookup from `start`, if the lookups of links' targets do what they should. -/
theorem does_from (hw : m.WellFormed ns) (left : Nat)
    (hp : ∀ dest, m.Does ns (m.lookUpWithin left none dest none {}) 0 (m.Resolves ns left dest)
      (dest.head? = some pathSeparator → m.Calm ns left false (m.rootDirectory, dest.tail)))
    (et : Option ObjectType) (os : Bool) {start : O} (hst : ns.Alive start)
    (path : Name) :
    m.Does ns (fun ns => m.lookUpLoop (fun dest => m.lookUpWithin left none dest none {}) et
        os (obMaxLoop - (left + 1)) maxDepth start path
        (ns.obReferenceObjectByPointer start)) 0
      (fun p => Within (m.Hop ns (m.Resolves ns left) os (obMaxLoop - (left + 1))) maxDepth
        (start, path) (m.Stops ns et os (obMaxLoop - (left + 1)) · p))
      (m.Calm ns (left + 1) os (start, path)) := by
  intro refs
  obtain ⟨x, hx, -⟩ := id hst
  have hsm : (ns.object start).isSome = true := by rw [hx]; rfl
  obtain ⟨res, leak, heq, hfs, hlk, hfn⟩ :=
    loopDoes hw hp (findable_of_resolves hw left) maxDepth start path (.inl hst) refs
  refine ⟨res, leak, ?_, hfs, hlk, hfn⟩
  rw [zero_add]
  dsimp only
  rw [reference_withRefs hsm, ← Multiset.singleton_add]
  exact heq

theorem does_target (hw : m.WellFormed ns) (left : Nat) (dest : Name) :
    m.Does ns (m.lookUpWithin left none dest none {}) 0 (m.Resolves ns left dest)
      (dest.head? = some pathSeparator → m.Calm ns left false (m.rootDirectory, dest.tail)) := by
  induction left generalizing dest with
  | zero =>
    intro refs
    exact ⟨.error .loopTooDeep, 0, by simp [lookUpWithin, gained], by simp [Resolves],
      by simp [Calm], by simp⟩
  | succ left ih =>
    intro refs
    by_cases hh : dest.head? = some pathSeparator
    · obtain ⟨res, leak, heq, hfs, hlk, hfn⟩ :=
        does_from hw left ih none false hw.root dest.tail refs
      refine ⟨res, leak, ?_, fun p => ?_, by simp [hlk, hh], hfn⟩
      · rw [← heq]
        simp [lookUpWithin, startObject, hh]
      · rw [hfs]
        simp only [stops_none_iff, Resolves, hh, true_and]
    · refine ⟨.error .pathInvalid, 0, ?_, fun p => ?_, by simp [hh], by simp⟩
      · simp [lookUpWithin, startObject, hh, gained]
      · simp [Resolves, hh]

omit [DecidableEq O] in
theorem startObject_alive (hw : m.WellFormed ns) {ipo : Option O}
    (hin : ∀ o ∈ ipo, ns.Alive o) {name path : Name}
    {et : Option ObjectType} {flags : OpenFlags} {start : O}
    (h : m.startObject ns ipo name et flags = some (.ok (start, path))) :
    ns.Alive start := by
  unfold startObject at h
  cases ipo with
  | none =>
    by_cases hh : name.head? = some pathSeparator
    · rw [if_pos hh] at h
      have hst := congrArg (fun r => r.map fun e => e.map Prod.fst) h
      simp only [map_some, Except.map, some.injEq, Except.ok.injEq] at hst
      rw [← hst]
      split
      · cases hrt : m.fileSystemRootLink with
        | none => exact hw.root
        | some o => exact hw.fileSystemRoot o hrt
      · exact hw.root
    · rw [if_neg hh] at h
      cases h
  | some o =>
    dsimp only at h
    by_cases hp : name.head? = some pathSeparator ∨ name = []
    · rw [if_pos hp] at h
      cases h
    · rw [if_neg hp] at h
      obtain ⟨x, -, hx⟩ := map_eq_some_iff.1 h
      split at hx
      · cases hx
        exact hin _ rfl
      · cases hx

omit [DecidableEq O] in
theorem startObject_ne_none {ipo : Option O} (hin : ∀ o ∈ ipo, ns.Alive o) {name : Name}
    {et : Option ObjectType} {flags : OpenFlags} :
    m.startObject ns ipo name et flags ≠ none := by
  unfold startObject
  cases ipo with
  | none =>
    dsimp only
    split <;> simp
  | some o =>
    obtain ⟨x, hx, -⟩ := hin o rfl
    dsimp only
    split
    · simp
    · simp [hx]

theorem startObject_withRefs {ipo : Option O} (hin : ∀ o ∈ ipo, ns.Alive o) {name : Name}
    {et : Option ObjectType} {flags : OpenFlags} :
    m.startObject (m.withRefs ns refs) ipo name et flags = m.startObject ns ipo name et flags := by
  unfold startObject
  cases ipo with
  | none => rfl
  | some o =>
    obtain ⟨x, hx, -⟩ := hin o rfl
    simp only [object_withRefs_of_some hx, hx, map_some]

/-- A lookup fails at once, or it gets to its loop. -/
theorem lookUpWithin_cases (hw : m.WellFormed ns) {initialParseObject : Option O}
    (hin : ∀ o ∈ initialParseObject, ns.Alive o) (name : Name)
    (expectedType : Option ObjectType) (loopCount : Nat) (flags : OpenFlags) (refs : Multiset O) :
    (∃ status, m.lookUpWithin (obMaxLoop - loopCount) initialParseObject name expectedType flags
        (m.withRefs ns refs) = some (.error status, m.withRefs ns refs) ∧
      ∀ start path, loopCount < obMaxLoop →
        m.startObject ns initialParseObject name expectedType flags ≠ some (.ok (start, path))) ∨
    ∃ left start path, ∃ result : Except ObStatus O, ∃ leak : Multiset O,
      obMaxLoop - loopCount = left + 1 ∧
      m.startObject ns initialParseObject name expectedType flags = some (.ok (start, path)) ∧
      m.lookUpWithin (obMaxLoop - loopCount) initialParseObject name expectedType flags
        (m.withRefs ns refs) = some (result, m.withRefs ns (gained result + (leak + refs))) ∧
      (∀ p, result = .ok p ↔
        Within (m.Hop ns (m.Resolves ns left) flags.openSymlink loopCount) maxDepth (start, path)
          (m.Stops ns expectedType flags.openSymlink loopCount · p)) ∧
      (leak = 0 ↔ m.Calm ns (left + 1) flags.openSymlink (start, path)) ∧
      ∀ p ∈ leak, m.Findable ns p := by
  by_cases hp : loopCount < obMaxLoop
  · obtain ⟨left, hlf⟩ : ∃ left, obMaxLoop - loopCount = left + 1 :=
      ⟨obMaxLoop - loopCount - 1, by omega⟩
    have hcount : obMaxLoop - (left + 1) = loopCount := by omega
    rw [hlf, lookUpWithin, startObject_withRefs hin, hcount]
    cases hso : m.startObject ns initialParseObject name expectedType flags with
    | none => exact absurd hso (startObject_ne_none hin)
    | some start =>
      cases start with
      | error status => exact .inl ⟨status, rfl, by simp⟩
      | ok start =>
        obtain ⟨start, path⟩ := start
        obtain ⟨result, leak, heq, hfn, hlk, hb⟩ := does_from hw left
          (does_target hw left) expectedType flags.openSymlink
          (startObject_alive hw hin hso) path refs
        simp only [hcount, zero_add] at heq hfn
        exact .inr ⟨left, start, path, result, leak, rfl, rfl, heq, hfn, hlk, hb⟩
  · refine .inl ⟨.loopTooDeep, ?_, fun start path hlt => absurd hlt hp⟩
    rw [Nat.sub_eq_zero_of_le (by omega)]
    rfl

/-- What a caller of a lookup gets: the answer with its reference, and the references that the lookup
leaks. -/
theorem lookUp_does (hw : m.WellFormed ns) (ipo : Option O)
    (hin : ∀ o ∈ ipo, ns.Alive o) (on : Option Name)
    (et : Option ObjectType) (lc : Nat) (flags : OpenFlags) (refs : Multiset O) :
    ∃ (res : Except ObStatus O) (leak : Multiset O), m.obpLookUpObjectPath ipo on et lc flags true
        (m.withRefs ns refs) = some (res, m.withRefs ns (gained res + (leak + refs))) ∧
      (∀ p ∈ leak, m.Findable ns p) ∧
      ∀ p, res = .ok p → m.Findable ns p ∧
        (et = some .directory → (m.body ns p).type = .directory) := by
  cases on with
  | none => exact ⟨.error .invalidParameter, 0, by simp [obpLookUpObjectPath, gained], by simp, by simp⟩
  | some name =>
    simp only [obpLookUpObjectPath, Bool.not_true, Bool.false_eq_true, if_false]
    rcases lookUpWithin_cases hw hin name et lc flags refs with
      ⟨status, heq, -⟩ | ⟨left, start, path, res, leak, -, hso, heq, hfs, -, hfn⟩
    · exact ⟨.error status, 0, by simp [heq, gained], by simp, by simp⟩
    · refine ⟨res, leak, heq, hfn, fun p hp => ?_⟩
      have hsr : m.Findable ns start := .inl (startObject_alive hw hin hso)
      obtain ⟨-, -, y, -, hst, hy⟩ := ((hfs p).1 hp).invariant (I := fun x => m.Findable ns x.1) hsr
        fun x y _ hop => findable_of_hop hw (findable_of_resolves hw left) x y hop
      cases hst with
      | directory hdr => exact ⟨hy, fun _ => hdr⟩
      | last hls hty =>
        exact ⟨findable_of_ends hw hy (.last hls), fun h => (hty .directory h).symm⟩

/-! ## When a lookup is right -/

section

variable (m ns)

/-- A lookup that found `found` is right: the path leads there, the type is the expected one, and
this object has one reference more and no other has. -/
structure Found (initialParseObject : Option O) (name : Name) (expectedType : Option ObjectType)
    (loopCount : Nat) (flags : OpenFlags) (found : O) (ns' : Namespace O) : Prop where
  follows : ∃ start path n x,
    m.startObject ns initialParseObject name expectedType flags = some (.ok (start, path)) ∧
      Hops (m.Hop ns (m.Resolves ns (obMaxLoop - loopCount - 1)) flags.openSymlink loopCount) n
        (start, path) x ∧ m.Ends ns flags.openSymlink loopCount x found
  type : ∀ type ∈ expectedType, (ns'.object found).map (fun h => h.body.type) = some type
  references : ∀ p, ns'.references p = ns.references p + if p = found then 1 else 0

/-- The lookup has returned what it should. -/
def Right (initialParseObject : Option O) (objectName : Option Name)
    (expectedType : Option ObjectType) (loopCount : Nat) (flags : OpenFlags) :
    Except ObStatus O → Namespace O → Prop
  | .ok found, ns' => ∃ name, objectName = some name ∧
    m.Found ns initialParseObject name expectedType loopCount flags found ns'
  | .error _, ns' => ∀ p, ns'.references p = ns.references p

/-- The path ends in a directory. -/
def EndsInDirectory (x : O × Name) : Prop := x.2 = [] ∧ (m.body ns x.1).type = .directory

/-- The lookups that do not reach the defects. -/
def Regular (initialParseObject : Option O) (objectName : Option Name)
    (expectedType : Option ObjectType) (loopCount : Nat) (flags : OpenFlags) (foundObject : Bool) :
    Prop :=
  ∀ name start path, objectName = some name → foundObject = true → loopCount < obMaxLoop →
    m.startObject ns initialParseObject name expectedType flags = some (.ok (start, path)) →
    m.Calm ns (obMaxLoop - loopCount) flags.openSymlink (start, path) ∧
      ∀ type ∈ expectedType, type ≠ .directory →
        ¬ Within (m.Hop ns (m.Resolves ns (obMaxLoop - loopCount - 1)) flags.openSymlink loopCount)
          maxDepth (start, path) (m.EndsInDirectory ns)

end

theorem leak_eq_zero_iff (m : ObManager O) (ns : Namespace O) (res leak : Multiset O) :
    (∀ p, (m.withRefs ns (res + leak)).references p = ns.references p + res.count p) ↔ leak = 0 := by
  simp only [references_withRefs, Multiset.count_add]
  constructor
  · intro h
    refine Multiset.eq_zero_of_forall_notMem fun p hp => ?_
    have := h p
    have := Multiset.count_pos.2 hp
    omega
  · rintro rfl p
    simp

/-- An answer with its leaks is right if there are no leaks, and no directory was found in place of
another type. -/
theorem right_withRefs_iff {ipo : Option O} {name : Name}
    {et : Option ObjectType} {lc : Nat} {flags : OpenFlags} {start : O} {path : Name}
    (hso : m.startObject ns ipo name et flags = some (.ok (start, path)))
    {res : Except ObStatus O} {leak : Multiset O}
    (hfn : ∀ p, res = .ok p ↔
      Within (m.Hop ns (m.Resolves ns (obMaxLoop - lc - 1)) flags.openSymlink lc)
        maxDepth (start, path) (m.Stops ns et flags.openSymlink lc · p)) :
    m.Right ns ipo (some name) et lc flags res (m.withRefs ns (gained res + leak)) ↔
      leak = 0 ∧ ∀ type ∈ et, type ≠ .directory →
        ¬ Within (m.Hop ns (m.Resolves ns (obMaxLoop - lc - 1)) flags.openSymlink lc)
          maxDepth (start, path) (m.EndsInDirectory ns) := by
  -- a directory at the end is what the lookup returns
  have hdc : ∀ n < maxDepth, ∀ x,
      Hops (m.Hop ns (m.Resolves ns (obMaxLoop - lc - 1)) flags.openSymlink lc) n
        (start, path) x → m.EndsInDirectory ns x → res = .ok x.1 := by
    rintro n hn ⟨d, rest⟩ hx ⟨hrs, hdr⟩
    obtain rfl : rest = [] := hrs
    exact (hfn d).2 ⟨n, hn, (d, []), hx, .directory hdr⟩
  cases res with
  | error st =>
    have hz : (∀ p, (m.withRefs ns (0 + leak)).references p = ns.references p) ↔ leak = 0 :=
      leak_eq_zero_iff m ns 0 leak
    simp only [Right, gained, hz]
    refine ⟨fun h => ⟨h, ?_⟩, fun h => h.1⟩
    rintro type - - ⟨n, hn, x, hx, hdr⟩
    exact absurd (hdc n hn x hx hdr) (by simp)
  | ok found =>
    have hz : (∀ p, (m.withRefs ns ({found} + leak)).references p
        = ns.references p + if p = found then 1 else 0) ↔ leak = 0 := by
      rw [← leak_eq_zero_iff m ns {found} leak]
      simp only [Multiset.count_singleton]
    have hme : found ∈ {found} + leak := by simp
    obtain ⟨y, hy, hb⟩ := object_withRefs_of_mem m ns hme
    have hty : ((m.withRefs ns ({found} + leak)).object found).map (fun h => h.body.type)
        = some (m.body ns found).type := by
      rw [hy, map_some, hb]
    constructor
    · rintro ⟨name', hnm, hrg⟩
      refine ⟨hz.1 hrg.references, ?_⟩
      rintro type ht hne ⟨n, hn, x, hx, hdr⟩
      have hfo := hdc n hn x hx hdr
      cases hfo
      have he := hrg.type type ht
      simp only [gained] at he
      rw [hty, hdr.2] at he
      exact hne (some.inj he).symm
    · rintro ⟨hlk, hdr⟩
      obtain ⟨n, hn, x, hx, hst⟩ := (hfn found).1 rfl
      refine ⟨name, rfl, ⟨start, path, n, x, hso, hx, ?_⟩, ?_, hz.2 hlk⟩
      · cases hst with
        | directory h => exact .directory h
        | last hls => exact .last hls
      · intro type ht
        simp only [gained]
        rw [hty]
        cases hst with
        | directory h =>
          rw [h]
          by_contra hne
          exact hdr type ht (fun h => hne (by rw [h])) ⟨n, hn, _, hx, rfl, h⟩
        | last _ hc => rw [hc type ht]

/-- Every lookup ends, and it is right exactly if it is regular. -/
theorem lookUp_right_iff (hwf : m.WellFormed ns) (initialParseObject : Option O)
    (hinitial : ∀ o ∈ initialParseObject, ns.Alive o) (objectName : Option Name)
    (expectedType : Option ObjectType) (loopCount : Nat) (flags : OpenFlags) (foundObject : Bool) :
    ∃ result ns',
      m.obpLookUpObjectPath initialParseObject objectName expectedType loopCount flags foundObject ns
        = some (result, ns') ∧
      (m.Right ns initialParseObject objectName expectedType loopCount flags result ns' ↔
        m.Regular ns initialParseObject objectName expectedType loopCount flags foundObject) := by
  cases objectName with
  | none => exact ⟨.error .invalidParameter, ns, rfl, iff_of_true (fun _ => rfl) (by simp [Regular])⟩
  | some name =>
    cases foundObject with
    | false =>
      exact ⟨.error .invalidParameter, ns, rfl, iff_of_true (fun _ => rfl) (by simp [Regular])⟩
    | true =>
      simp only [obpLookUpObjectPath, Bool.not_true, Bool.false_eq_true, if_false]
      rcases lookUpWithin_cases hwf hinitial name expectedType loopCount flags 0 with
        ⟨status, heq, hst⟩ | ⟨left, start, path, result, leak, hlf, hso, heq, hfn, hlk, -⟩
      · rw [withRefs_zero] at heq
        refine ⟨.error status, ns, heq, iff_of_true (fun _ => rfl) ?_⟩
        rintro name' start path hnm - hp hso
        cases hnm
        exact absurd hso (hst start path hp)
      · rw [withRefs_zero, add_zero] at heq
        refine ⟨result, _, heq, ?_⟩
        have hb : obMaxLoop - loopCount - 1 = left := by omega
        rw [right_withRefs_iff hso (by rw [hb]; exact hfn), hlk, ← hlf]
        constructor
        · rintro h name' start' path' hnm - - hso'
          cases hnm
          rw [hso] at hso'
          cases hso'
          exact h
        · intro h
          exact h name start path rfl rfl (by omega) hso

/-- A root directory with one device in it; opening the device creates a file object. -/
def oneDevice : ObManager Nat where
  rootDirectory := 0
  fileSystemRootLink := none
  parse
    | .other _ => some fun _ _ _ => .ok (2, none)
    | _ => none
  created _ := .file

def oneDeviceObjects : Namespace Nat where
  object
    | 0 => some ⟨true, some ['r'], none, 2, .directory [1] 1⟩
    | 1 => some ⟨false, some ['d'], some 0, 1, .other 0⟩
    | _ => none
  reaperList := []

theorem oneDevice_wellFormed : oneDevice.WellFormed oneDeviceObjects where
  root := ⟨_, rfl, .inr rfl⟩
  fileSystemRoot o h := by cases h
  children d children count h c hc := by
    match d, h with
    | 0, h =>
      cases h
      obtain rfl := List.mem_singleton.1 hc
      exact ⟨_, rfl, .inl (by decide)⟩
    | 1, h => cases h
    | _ + 2, h => cases h
  parse type method o path loopCount new rest hmt hok := by
    cases type with
    | other =>
      cases hmt
      cases hok
      exact .inr rfl
    | _ => cases hmt

/-- The root directory itself is looked up as it should be. -/
theorem lookUp_right_iff_root :
    ∃ result ns', oneDevice.obpLookUpObjectPath none (some ['/']) none 0 {} true oneDeviceObjects
        = some (result, ns') ∧
      oneDevice.Right oneDeviceObjects none (some ['/']) none 0 {} result ns' := by
  obtain ⟨result, ns', heq, hrg⟩ := lookUp_right_iff oneDevice_wellFormed none (by simp)
    (some ['/']) none 0 {} true
  refine ⟨result, ns', heq, hrg.2 ?_⟩
  intro name start path hnm _ _ hst
  cases hnm
  cases hst
  refine ⟨?_, by simp⟩
  have hh : ∀ z, ¬ oneDevice.Hop oneDeviceObjects (oneDevice.Resolves oneDeviceObjects 15) false 0
      (0, []) z := by
    intro z
    have hrt : oneDevice.body oneDeviceObjects 0 = .directory [1] 1 := rfl
    rw [hop_directory_iff hrt]
    exact fun h => h.1 rfl
  refine settles_succ.2 ⟨⟨?_, ?_⟩, fun z hz => absurd hz (hh z)⟩
  · intro dest hb
    cases hb
  · exact finishes_of_own rfl

/-- Opening the device leaves a reference on it behind, and the root directory is returned when a
symbolic link is expected. -/
theorem lookUp_not_right : oneDevice.WellFormed oneDeviceObjects ∧
    (∃ ns', oneDevice.obpLookUpObjectPath none (some ['/', 'd']) none 0 {} true oneDeviceObjects
        = some (.ok 2, ns') ∧
      ¬ oneDevice.Right oneDeviceObjects none (some ['/', 'd']) none 0 {} (.ok 2) ns') ∧
    ∃ ns', oneDevice.obpLookUpObjectPath none (some ['/']) (some .symbolicLink) 0 {} true
        oneDeviceObjects = some (.ok 0, ns') ∧
      ¬ oneDevice.Right oneDeviceObjects none (some ['/']) (some .symbolicLink) 0 {} (.ok 0) ns' := by
  refine ⟨oneDevice_wellFormed, ⟨_, rfl, ?_⟩, ⟨_, rfl, ?_⟩⟩
  · rintro ⟨_, -, h⟩
    exact absurd (h.references 1) (by decide)
  · rintro ⟨_, -, h⟩
    exact absurd (h.type .symbolicLink rfl) (by decide)

end ObManager

end Boron.Ob
