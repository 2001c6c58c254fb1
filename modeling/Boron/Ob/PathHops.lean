import Mathlib.Data.List.Basic
import Boron.Lib.Hops
import Boron.Ob.PathLookup

/-! # What a path leads to

A path is followed one hop at a time, through directories, links and `Parse` methods. `Hop` and
`Ends` say this on the objects alone, with no reference counts. `Calm` is the condition on the hops
under which a lookup leaks no reference. -/

namespace Boron.Ob

open Option

/-! ## Components -/

/-- The first component of a path. -/
def component (path : Name) : Name := path.takeWhile (· ≠ pathSeparator)

/-- The path after its first component and the separator. -/
def afterComponent (path : Name) : Name := (path.dropWhile (· ≠ pathSeparator)).tail

theorem component_cons (c : Char) (path : Name) (h : c ≠ pathSeparator) :
    component (c :: path) = c :: component path := by
  simp [component, h]

theorem afterComponent_cons (c : Char) (path : Name) (h : c ≠ pathSeparator) :
    afterComponent (c :: path) = afterComponent path := by
  simp [afterComponent, h]

theorem component_separator (path : Name) : component (pathSeparator :: path) = [] := by
  simp [component]

theorem afterComponent_separator (path : Name) : afterComponent (pathSeparator :: path) = path := by
  simp [afterComponent]

theorem matchFrom_component (path : Name) (n : Nat) :
    ∃ k, Namespace.matchFrom (component path) path n = n + k ∧ path.drop k = afterComponent path ∧
      (path ≠ [] → k ≠ 0) := by
  induction path generalizing n with
  | nil => exact ⟨0, rfl, rfl, by simp⟩
  | cons c path ih =>
    by_cases hc : c = pathSeparator
    · subst hc
      rw [component_separator, afterComponent_separator]
      exact ⟨1, by simp [Namespace.matchFrom], rfl, by simp⟩
    · rw [component_cons c path hc, afterComponent_cons c path hc]
      obtain ⟨k, hmt, hdrop, -⟩ := ih (n + 1)
      refine ⟨k + 1, ?_, by simpa using hdrop, by simp⟩
      simp only [Namespace.matchFrom, hc, ne_eq, not_false_eq_true, and_self, if_true, hmt]
      omega

theorem matchFrom_of_ne (name path : Name) (h : name ≠ component path) (n : Nat) :
    Namespace.matchFrom name path n = 0 := by
  induction path generalizing name n with
  | nil =>
    cases name with
    | nil => exact absurd rfl h
    | cons c name => rfl
  | cons c path ih =>
    by_cases hc : c = pathSeparator
    · subst hc
      rw [component_separator] at h
      cases name with
      | nil => exact absurd rfl h
      | cons d name => simp [Namespace.matchFrom]
    · rw [component_cons c path hc] at h
      cases name with
      | nil => simp [Namespace.matchFrom, hc]
      | cons d name =>
        by_cases hd : d = c
        · subst hd
          simp only [Namespace.matchFrom, hc, ne_eq, not_false_eq_true, and_self, if_true]
          exact ih name (fun heq => h (by rw [heq])) (n + 1)
        · simp [Namespace.matchFrom, hd]

theorem obMatchPathName_ne_zero_iff {path : Name} (hp : path ≠ []) (name : Name) :
    Namespace.obMatchPathName name path ≠ 0 ↔ name = component path := by
  constructor
  · intro h
    by_contra hne
    exact h (matchFrom_of_ne name path hne 0)
  · rintro rfl
    obtain ⟨k, hmt, -, hk⟩ := matchFrom_component path 0
    unfold Namespace.obMatchPathName
    rw [hmt]
    have := hk hp
    omega

theorem drop_obMatchPathName (path : Name) :
    path.drop (Namespace.obMatchPathName (component path) path) = afterComponent path := by
  obtain ⟨k, hmt, hdrop, -⟩ := matchFrom_component path 0
  unfold Namespace.obMatchPathName
  rw [hmt, Nat.zero_add, hdrop]

/-! ## Hops -/

variable {O : Type}

namespace Namespace

/-- The object stays when a reference to it comes and goes. -/
def Alive (ns : Namespace O) (o : O) : Prop :=
  ∃ h, ns.object o = some h ∧ (0 < h.pointerCount ∨ h.permanent = true)

end Namespace

namespace ObManager

variable (m : ObManager O) (ns : Namespace O)

/-- The body of an object, also of one that a `Parse` method has yet to create. -/
def body (o : O) : Body O := ((ns.object o).map Object.body).getD (m.created o)

/-- A lookup may get to this object: it is there to stay, or a `Parse` method has yet to create it. -/
def Findable (o : O) : Prop :=
  ns.Alive o ∨ ns.object o = none ∧ ∃ type method p path loopCount rest,
    m.parse type = some method ∧ method p path loopCount = .ok (o, rest)

/-- One hop, when `resolves` says what a link's target is. -/
inductive Hop (resolves : Name → O → Prop) (openSymlink : Bool) (loopCount : Nat) :
    O × Name → O × Name → Prop
  | entry {d c : O} {children : List O} {count : Int} {path : Name} :
    m.body ns d = .directory children count → path ≠ [] →
    (children.find? fun c => ns.objectName c = some (component path)) = some c →
    Hop resolves openSymlink loopCount (d, path) (c, afterComponent path)
  | link {l o : O} {dest path : Name} :
    m.body ns l = .symbolicLink (some dest) → ¬ (path = [] ∧ openSymlink = true) →
    resolves dest o → Hop resolves openSymlink loopCount (l, path) (o, path)
  | parse {o new : O} {path rest : Name}
      {method : O → Name → (loopCount : Nat) → Except ObStatus (O × Option Name)} :
    m.foreignParse (m.body ns o) = some method →
    method o path (loopCount + 1) = .ok (new, some rest) →
    Hop resolves openSymlink loopCount (o, path) (new, rest)

/-- A foreign method says that the path ends in `new`. -/
def Finishes (loopCount : Nat) (x : O × Name) (new : O) : Prop :=
  ∃ method, m.foreignParse (m.body ns x.1) = some method ∧
    method x.1 x.2 (loopCount + 1) = .ok (new, none)

/-- The path ends in `o`, which is not a directory. -/
inductive Last (openSymlink : Bool) (loopCount : Nat) : O × Name → O → Prop
  | link {l : O} {dest : Option Name} :
    m.body ns l = .symbolicLink dest → openSymlink = true → Last openSymlink loopCount (l, []) l
  | leaf {o : O} :
    (m.body ns o).type ≠ .directory → (m.body ns o).type ≠ .symbolicLink →
    m.foreignParse (m.body ns o) = none → Last openSymlink loopCount (o, []) o
  | parse {x : O × Name} {new : O} :
    m.Finishes ns loopCount x new → Last openSymlink loopCount x new

/-- The path ends in `o`. -/
inductive Ends (openSymlink : Bool) (loopCount : Nat) : O × Name → O → Prop
  | directory {d : O} :
    (m.body ns d).type = .directory → Ends openSymlink loopCount (d, []) d
  | last {x : O × Name} {o : O} :
    m.Last ns openSymlink loopCount x o → Ends openSymlink loopCount x o

/-- What the target of a link leads to, when the loop count may go up `left` more times. -/
def Resolves : (left : Nat) → Name → O → Prop
  | 0, _, _ => False
  | left + 1, dest, o =>
    dest.head? = some pathSeparator ∧
      Within (m.Hop ns (Resolves left) false (obMaxLoop - (left + 1))) maxDepth
        (m.rootDirectory, dest.tail) (m.Ends ns false (obMaxLoop - (left + 1)) · o)

/-- No lookup, of this path or of the target of a link on the way, makes `maxDepth` hops, and no
foreign method finishes a path. -/
def Calm : (left : Nat) → (openSymlink : Bool) → O × Name → Prop
  | 0, _, _ => True
  | left + 1, openSymlink, x =>
    Settles (m.Hop ns (m.Resolves ns left) openSymlink (obMaxLoop - (left + 1))) maxDepth
      (fun y =>
        (∀ dest, m.body ns y.1 = .symbolicLink (some dest) →
          ¬ (y.2 = [] ∧ openSymlink = true) → dest.head? = some pathSeparator →
          Calm left false (m.rootDirectory, dest.tail)) ∧
        ∀ new, ¬ m.Finishes ns (obMaxLoop - (left + 1)) y new)
      x

/-- The lookup stops with `o`; the end of the path is checked against the expected type, but not a
directory there. -/
inductive Stops (expectedType : Option ObjectType) (openSymlink : Bool) (loopCount : Nat) :
    O × Name → O → Prop
  | directory {d : O} :
    (m.body ns d).type = .directory → Stops expectedType openSymlink loopCount (d, []) d
  | last {x : O × Name} {o : O} :
    m.Last ns openSymlink loopCount x o → (∀ type ∈ expectedType, type = (m.body ns o).type) →
    Stops expectedType openSymlink loopCount x o

/-- What `Calm` asks of one state, when `calmTarget` is what it asks of a link's target. -/
def CalmAt (calmTarget : Name → Prop) (openSymlink : Bool) (loopCount : Nat) (y : O × Name) : Prop :=
  (∀ dest, m.body ns y.1 = .symbolicLink (some dest) → ¬ (y.2 = [] ∧ openSymlink = true) →
    calmTarget dest) ∧ ∀ new, ¬ m.Finishes ns loopCount y new

/-- The objects that a lookup can come by are findable. -/
structure WellFormed : Prop where
  root : ns.Alive m.rootDirectory
  fileSystemRoot : ∀ o ∈ m.fileSystemRootLink, ns.Alive o
  children : ∀ d children count, m.body ns d = .directory children count →
    ∀ c ∈ children, ns.Alive c
  parse : ∀ type method o path loopCount new rest, m.parse type = some method →
    method o path loopCount = .ok (new, rest) → ns.Alive new ∨ ns.object new = none

variable {m ns} in
theorem body_of_directory {d : O} {cs : List O} {count : Int}
    (h : ns.directory d = some (cs, count)) : m.body ns d = .directory cs count := by
  unfold Namespace.directory at h
  obtain ⟨x, hx, hdr⟩ := bind_eq_some_iff.1 h
  unfold Object.directory at hdr
  split at hdr
  · next hb =>
      cases hdr
      rw [body, hx, map_some, getD_some, hb]
  · cases hdr

section

variable {m ns} {resolves : Name → O → Prop} {calmTarget : Name → Prop}
  {expectedType : Option ObjectType} {openSymlink : Bool} {loopCount : Nat} {o : O} {path : Name}

variable {mth : O → Name → (loopCount : Nat) → Except ObStatus (O × Option Name)}

theorem findable_of_foreignParse (hw : m.WellFormed ns) {body : Body O}
    (hmt : m.foreignParse body = some mth) {new : O} {rest : Option Name}
    (hok : mth o path loopCount = .ok (new, rest)) : m.Findable ns new := by
  have hfn : ∀ type, m.parse type = some mth → m.Findable ns new := by
    intro type hy
    rcases hw.parse type mth o path loopCount new rest hy hok with h | h
    · exact .inl h
    · exact .inr ⟨h, type, mth, o, path, loopCount, rest, hy, hok⟩
  cases body with
  | directory => cases hmt
  | symbolicLink => cases hmt
  | file => exact hfn _ hmt
  | other => exact hfn _ hmt

theorem finishes_of_own (h : m.foreignParse (m.body ns o) = none) (new : O) :
    ¬ m.Finishes ns loopCount (o, path) new := by
  rintro ⟨mth, hmt, -⟩
  rw [h] at hmt
  cases hmt

theorem calmAt_of_own (hln : (m.body ns o).type ≠ .symbolicLink)
    (hp : m.foreignParse (m.body ns o) = none) :
    m.CalmAt ns calmTarget openSymlink loopCount (o, path) := by
  refine ⟨fun dest hb => ?_, finishes_of_own hp⟩
  rw [hb] at hln
  exact absurd rfl hln

theorem hop_directory_iff {cs : List O} {count : Int}
    (h : m.body ns o = .directory cs count) (z : O × Name) :
    m.Hop ns resolves openSymlink loopCount (o, path) z ↔
      path ≠ [] ∧ ∃ c, (cs.find? fun c => ns.objectName c = some (component path)) = some c ∧
        z = (c, afterComponent path) := by
  constructor
  · intro hop
    cases hop with
    | entry hb hp hfn =>
      rw [h] at hb
      cases hb
      exact ⟨hp, _, hfn, rfl⟩
    | link hb => rw [h] at hb; cases hb
    | parse hmt => rw [h] at hmt; cases hmt
  · rintro ⟨hp, c, hfn, rfl⟩
    exact .entry h hp hfn

variable {dest : Option Name}

theorem hop_link_iff (h : m.body ns o = .symbolicLink dest) (z : O × Name) :
    m.Hop ns resolves openSymlink loopCount (o, path) z ↔
      ¬ (path = [] ∧ openSymlink = true) ∧ ∃ d new, dest = some d ∧ resolves d new ∧
        z = (new, path) := by
  constructor
  · intro hop
    cases hop with
    | entry hb => rw [h] at hb; cases hb
    | link hb hon hrs =>
      rw [h] at hb
      cases hb
      exact ⟨hon, _, _, rfl, hrs, rfl⟩
    | parse hmt => rw [h] at hmt; cases hmt
  · rintro ⟨hon, d, new, rfl, hrs, rfl⟩
    exact .link h hon hrs

theorem hop_foreign_iff (hdr : (m.body ns o).type ≠ .directory)
    (hln : (m.body ns o).type ≠ .symbolicLink) (z : O × Name) :
    m.Hop ns resolves openSymlink loopCount (o, path) z ↔
      ∃ mth new rest, m.foreignParse (m.body ns o) = some mth ∧
        mth o path (loopCount + 1) = .ok (new, some rest) ∧ z = (new, rest) := by
  constructor
  · intro hop
    cases hop with
    | entry hb => rw [hb] at hdr; exact absurd rfl hdr
    | link hb => rw [hb] at hln; exact absurd rfl hln
    | parse hmt hok => exact ⟨_, _, _, hmt, hok, rfl⟩
  · rintro ⟨mth, new, rest, hmt, hok, rfl⟩
    exact .parse hmt hok

theorem findable_of_hop (hw : m.WellFormed ns)
    (hrl : ∀ dest p, resolves dest p → m.Findable ns p) (x y : O × Name)
    (hop : m.Hop ns resolves openSymlink loopCount x y) : m.Findable ns y.1 := by
  cases hop with
  | entry hb _ hfn =>
    exact .inl (hw.children _ _ _ hb _ (List.mem_of_find?_eq_some hfn))
  | link _ _ hrs => exact hrl _ _ hrs
  | parse hmt hok => exact findable_of_foreignParse hw hmt hok

theorem findable_of_ends (hw : m.WellFormed ns) {x : O × Name} (hx : m.Findable ns x.1) {p : O}
    (h : m.Ends ns openSymlink loopCount x p) : m.Findable ns p := by
  cases h with
  | directory => exact hx
  | last hls =>
    cases hls with
    | link => exact hx
    | leaf => exact hx
    | parse hfn =>
      obtain ⟨mth, hmt, hok⟩ := hfn
      exact findable_of_foreignParse hw hmt hok

/-- The target of a link leads to an object that a lookup may get to. -/
theorem findable_of_resolves (hwf : m.WellFormed ns) (left : Nat) (dest : Name) (p : O)
    (h : m.Resolves ns left dest p) : m.Findable ns p := by
  induction left generalizing dest p with
  | zero => exact absurd h id
  | succ left ih =>
    obtain ⟨-, hw⟩ := h
    obtain ⟨-, -, y, -, he, hy⟩ := hw.invariant (I := fun x => m.Findable ns x.1)
      (.inl hwf.root) fun x y _ hop => findable_of_hop hwf ih x y hop
    exact findable_of_ends hwf hy he

theorem stops_none_iff (x : O × Name) (p : O) :
    m.Stops ns none openSymlink loopCount x p ↔ m.Ends ns openSymlink loopCount x p := by
  constructor
  · intro h
    cases h with
    | directory hdr => exact .directory hdr
    | last hls => exact .last hls
  · intro h
    cases h with
    | directory hdr => exact .directory hdr
    | last hls => exact .last hls (by simp)

theorem stops_directory_iff (h : (m.body ns o).type = .directory) (p : O) :
    m.Stops ns expectedType openSymlink loopCount (o, path) p ↔ path = [] ∧ p = o := by
  constructor
  · intro hst
    cases hst with
    | directory => exact ⟨rfl, rfl⟩
    | last hls =>
      cases hls with
      | link hb => rw [hb] at h; cases h
      | leaf hdr => exact absurd h hdr
      | parse hfn =>
        refine absurd hfn (finishes_of_own ?_ p)
        cases hb : m.body ns o with
        | directory => rfl
        | _ => rw [hb] at h; cases h
  · rintro ⟨rfl, rfl⟩
    exact .directory h

theorem stops_link_iff (h : m.body ns o = .symbolicLink dest) (p : O) :
    m.Stops ns expectedType openSymlink loopCount (o, path) p ↔
      (path = [] ∧ openSymlink = true) ∧ p = o ∧ ∀ type ∈ expectedType, type = (m.body ns p).type := by
  constructor
  · intro hst
    cases hst with
    | directory hdr => rw [h] at hdr; cases hdr
    | last hls hy =>
      cases hls with
      | link _ hon => exact ⟨⟨rfl, hon⟩, rfl, hy⟩
      | leaf _ hln => rw [h] at hln; exact absurd rfl hln
      | parse hfn => exact absurd hfn (finishes_of_own (by rw [h]; rfl) p)
  · rintro ⟨⟨rfl, hon⟩, rfl, hy⟩
    exact .last (.link h hon) hy

theorem stops_leaf_iff (hdr : (m.body ns o).type ≠ .directory)
    (hln : (m.body ns o).type ≠ .symbolicLink) (hp : m.foreignParse (m.body ns o) = none)
    (p : O) :
    m.Stops ns expectedType openSymlink loopCount (o, path) p ↔
      path = [] ∧ p = o ∧ ∀ type ∈ expectedType, type = (m.body ns p).type := by
  constructor
  · intro hst
    cases hst with
    | directory h => exact absurd h hdr
    | last hls hy =>
      cases hls with
      | link hb => rw [hb] at hln; exact absurd rfl hln
      | leaf => exact ⟨rfl, rfl, hy⟩
      | parse hfn => exact absurd hfn (finishes_of_own hp p)
  · rintro ⟨rfl, rfl, hy⟩
    exact .last (.leaf hdr hln hp) hy

theorem stops_parse_iff (hdr : (m.body ns o).type ≠ .directory) (hln : (m.body ns o).type ≠ .symbolicLink)
    (hp : m.foreignParse (m.body ns o) = some mth) (p : O) :
    m.Stops ns expectedType openSymlink loopCount (o, path) p ↔
      mth o path (loopCount + 1) = .ok (p, none) ∧
        ∀ type ∈ expectedType, type = (m.body ns p).type := by
  constructor
  · intro hst
    cases hst with
    | directory h => exact absurd h hdr
    | last hls hy =>
      cases hls with
      | link hb => rw [hb] at hln; exact absurd rfl hln
      | leaf _ _ hnn => rw [hp] at hnn; cases hnn
      | parse hfn =>
        obtain ⟨mth', hmt, hok⟩ := hfn
        rw [hp] at hmt
        cases hmt
        exact ⟨hok, hy⟩
  · rintro ⟨hok, hy⟩
    exact .last (.parse ⟨mth, hp, hok⟩) hy

end

end ObManager

end Boron.Ob
