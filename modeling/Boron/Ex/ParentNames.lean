import Boron.Ex.CreateCalls
import Boron.Ex.NameScan

/-! # The parent directory and the name of a new object (`ob/dir.c`, `ob/create.c`)

`ObpNormalizeParentDirectoryAndName` works on two variables of its caller. A null parent is replaced by
the root directory before the last checks, a name that ends in a separator becomes an empty one, and
an object that cannot be linked stays: `parentAndName_right_iff` says for which calls none of this
happens. -/

open List Option

namespace Boron.Ob

variable {O : Type} [DecidableEq O]

/-! ## The variables of the caller -/

/-- `*ParentDirectory` and `*Name`. -/
structure ParentAndName (O : Type) where
  parentDirectory : Option O
  name : Option Name

/-- A call of `ObCreateObjectCallback`: where the new object goes if there is memory, how the callback
ends, and whether there is room for the name. -/
structure NewObject (O : Type) where
  object : O
  type : ObjectType
  permanent : Bool
  noDirectory : Bool
  bodySize : Nat
  memory : Bool
  callback : ObStatus
  room : Bool

namespace ObManager

/-- `ObpNormalizeParentDirectoryAndName`, from where `dir` and `name` are in the variables. -/
def normalizeVariablesFrom (m : ObManager O) (buffer : Nat → Char) (dir : O) (name : Name)
    (ns : Namespace O) : Option (Except ObStatus Unit × ParentAndName O × Namespace O) :=
  if name.head? = some pathSeparator then some (.error .invalidParameter, ⟨some dir, some name⟩, ns)
  else if name.length ≥ obMaxPathLength - 1 then
    some (.error .nameTooLong, ⟨some dir, some name⟩, ns)
  else
    let s := NameScan.run buffer name
    let path := cString s.pathWithoutName obMaxPathLength 0
    if s.pathWithoutName 0 = nul then some (.ok (), ⟨some dir, s.finalName⟩, ns)
    else
      (m.obpLookUpObjectPath (some dir) (some path) (some .directory) 0 {} true ns).map fun
        | (.error status, ns) => (.error status, ⟨some dir, some name⟩, ns)
        | (.ok found, ns) => (.ok (), ⟨some found, s.finalName⟩, ns)

/-- `ObpNormalizeParentDirectoryAndName`, with what its buffer holds and its caller's variables. -/
def normalizeVariables (m : ObManager O) (buffer : Nat → Char) (v : ParentAndName O)
    (ns : Namespace O) : Option (Except ObStatus Unit × ParentAndName O × Namespace O) :=
  match v.name with
  | none => some (.error .invalidParameter, v, ns)
  | some name =>
    if name = [] then some (.error .invalidParameter, v, ns)
    else
      match v.parentDirectory with
      | some dir => m.normalizeVariablesFrom buffer dir name ns
      | none =>
        if name.head? ≠ some pathSeparator then some (.error .invalidParameter, v, ns)
        else m.normalizeVariablesFrom buffer m.rootDirectory name.tail ns

/-- `ObCreateObjectCallback`, once there is a root directory. -/
def obCreateObjectCallback (m : ObManager O) (buffer : Nat → Char) (v : ParentAndName O)
    (c : NewObject O) (ns : Namespace O) : Option (Except ObStatus Unit × Namespace O) :=
  let create := fun target (ns : Namespace O) =>
    (ns.createObject c.object c.type c.permanent c.memory c.callback target c.room).map
      fun (status, ns) => (ofStatus status, ns)
  if c.bodySize = 0 then some (.error .invalidParameter, ns)
  else if c.noDirectory then create none ns
  else
    (m.normalizeVariables buffer v ns).bind fun
      | (.error status, _, ns) => some (.error status, ns)
      | (.ok (), v, ns) =>
        create (v.parentDirectory.bind fun dir => v.name.map fun name => (dir, name)) ns

end ObManager

end Boron.Ob

namespace Boron.Ex.Services

open Boron.Ob

variable {O : Type} [DecidableEq O] {m : ObManager O} {ns : Namespace O} {parent : Option O}
  {name rest : Name} {dir : O}

/-- What the variables are after the name has been looked up. -/
def variablesAfter (dir : O) (name : Name) :
    Except ObStatus (O × Name) → Except ObStatus Unit × ParentAndName O
  | .error status => (.error status, ⟨some dir, some name⟩)
  | .ok (found, final) => (.ok (), ⟨some found, some final⟩)

/-- The function with its variables does what `obpNormalizeParentDirectoryAndName` does. -/
theorem normalizeVariables_of_looksIn (buf : Nat → Char) (hlk : LooksIn m parent name dir rest)
    (hnl : nul ∉ name) :
    m.normalizeVariables buf ⟨parent, some name⟩ ns = (normalizeIn m dir rest ns).map fun (res, ns) =>
          ((variablesAfter dir rest res).1, (variablesAfter dir rest res).2, ns) := by
  obtain ⟨hst, hh, hlength⟩ := hlk
  have hfr : nul ∉ rest → m.normalizeVariablesFrom buf dir rest ns
      = (normalizeIn m dir rest ns).map fun (res, ns) =>
          ((variablesAfter dir rest res).1, (variablesAfter dir rest res).2, ns) := by
    intro hrs
    obtain ⟨hfn, hp⟩ := scan_spec buf hrs (by omega)
    have he : (NameScan.run buf rest).pathWithoutName 0 = nul ↔ (splitName rest).1 = [] := by
      rw [← hp]
      exact (cString_eq_nil_iff (by decide)).symm
    unfold ObManager.normalizeVariablesFrom normalizeIn
    rw [if_neg hh, if_neg (by omega)]
    dsimp only
    rw [hfn, hp]
    by_cases hnn : (splitName rest).1 = []
    · rw [if_pos (he.2 hnn), if_pos hnn]
      rfl
    · rw [if_neg (fun h => hnn (he.1 h)), if_neg hnn, Option.map_map]
      congr 1
      funext r
      obtain ⟨res, ns'⟩ := r
      cases res <;> rfl
  obtain ⟨rfl, hnm, rfl⟩ | ⟨rfl, rfl, rfl⟩ := hst
  · unfold ObManager.normalizeVariables
    dsimp only
    rw [if_neg hnm]
    exact hfr hnl
  · unfold ObManager.normalizeVariables
    dsimp only
    rw [if_neg (cons_ne_nil _ _), if_neg (fun h => h rfl)]
    exact hfr fun h => hnl (mem_cons_of_mem _ h)

/-- A name that is not looked up: the call fails, with the root directory in the place of a null parent
if the name begins with a separator. -/
theorem normalizeVariables_of_not (ns : Namespace O) (buf : Nat → Char)
    (hnt : ∀ dir rest, ¬ LooksIn m parent name dir rest) :
    ∃ st v, m.normalizeVariables buf ⟨parent, some name⟩ ns = some (.error st, v, ns) ∧
      v.parentDirectory = if parent = none ∧ name.head? = some pathSeparator then
        some m.rootDirectory else parent := by
  have hfr : ∀ dir rest, ¬ (rest.head? ≠ some pathSeparator ∧ rest.length < obMaxPathLength - 1) →
      ∃ st v, m.normalizeVariablesFrom buf dir rest ns = some (.error st, v, ns) ∧
        v.parentDirectory = some dir := by
    intro dir rest hp
    unfold ObManager.normalizeVariablesFrom
    by_cases hh : rest.head? = some pathSeparator
    · rw [if_pos hh]
      exact ⟨_, _, rfl, rfl⟩
    · rw [if_neg hh, if_pos (by
        by_contra hlength
        exact hp ⟨hh, by omega⟩)]
      exact ⟨_, _, rfl, rfl⟩
  unfold ObManager.normalizeVariables
  dsimp only
  by_cases hnm : name = []
  · subst hnm
    rw [if_pos rfl, if_neg (by simp)]
    exact ⟨_, _, rfl, rfl⟩
  · rw [if_neg hnm]
    cases parent with
    | some dir =>
      obtain ⟨st, v, heq, hv⟩ := hfr dir name fun h => hnt dir name ⟨.inl ⟨rfl, hnm, rfl⟩, h⟩
      dsimp only
      rw [if_neg (fun h => some_ne_none dir h.1)]
      exact ⟨st, v, heq, hv⟩
    | none =>
      by_cases hh : name.head? = some pathSeparator
      · obtain ⟨rest, rfl⟩ : ∃ rest, name = pathSeparator :: rest := by
          cases name with
          | nil => cases hh
          | cons c rest =>
            cases hh
            exact ⟨rest, rfl⟩
        obtain ⟨st, v, heq, hv⟩ := hfr m.rootDirectory rest fun h =>
          hnt _ rest ⟨.inr ⟨rfl, rfl, rfl⟩, h⟩
        rw [if_neg (fun h => h hh), if_pos ⟨rfl, hh⟩]
        exact ⟨st, v, heq, hv⟩
      · rw [if_pos hh, if_neg (fun h => hh h.2)]
        exact ⟨_, _, rfl, rfl⟩

/-! ## What a name denotes -/

/-- The path before the last separator of a name; before it there may only be the root. -/
def pathBefore (name : Name) : Name :=
  if (splitName name).1 = [] then [pathSeparator] else (splitName name).1

/-- `final` is what stands after the last separator of a name, and looking up what stands before it
from the parent directory yields `found`, which is the parent directory itself if there is none. -/
def Denotes (m : ObManager O) (ns : Namespace O) (parent : Option O) (name : Name) (found : O)
    (final : Name) : Prop :=
  final = (splitName name).2 ∧
    if pathSeparator ∈ name then
      ∃ ns', m.obpLookUpObjectPath parent (some (pathBefore name)) (some .directory) 0 {} true ns
        = some (.ok found, ns')
    else parent = some found

theorem denotes_unique {found found' : O} {final final' : Name} (h : Denotes m ns parent name found final)
    (h' : Denotes m ns parent name found' final') : found = found' ∧ final = final' := by
  obtain ⟨rfl, hfn⟩ := h
  obtain ⟨rfl, hfn'⟩ := h'
  refine ⟨?_, rfl⟩
  by_cases hp : pathSeparator ∈ name
  · rw [if_pos hp] at hfn hfn'
    obtain ⟨ns₁, h₁⟩ := hfn
    obtain ⟨ns₂, h₂⟩ := hfn'
    rw [h₁] at h₂
    cases h₂
    rfl
  · rw [if_neg hp] at hfn hfn'
    exact some.inj (hfn.symm.trans hfn')

omit [DecidableEq O] in
theorem startObject_root (path : Name) :
    m.startObject ns none (pathSeparator :: path) (some .directory) {}
      = some (.ok (m.rootDirectory, path)) := by
  simp [ObManager.startObject]

/-- A path from the root directory is the same with the separator and no parent as without. -/
theorem lookUp_root (hrt : (ns.directory m.rootDirectory).isSome = true) {path : Name}
    (hp : path ≠ []) (hh : path.head? ≠ some pathSeparator) :
    m.obpLookUpObjectPath none (some (pathSeparator :: path)) (some .directory) 0 {} true ns
      = m.obpLookUpObjectPath (some m.rootDirectory) (some path) (some .directory) 0 {} true ns := by
  obtain ⟨⟨children, count⟩, hdr⟩ := isSome_iff_exists.1 hrt
  obtain ⟨x, hx, hbd⟩ := bind_eq_some_iff.1 hdr
  have hy : x.body.type = .directory := by
    unfold Object.directory at hbd
    cases hb : x.body with
    | directory => rfl
    | _ => rw [hb] at hbd; cases hbd
  have hst : m.startObject ns (some m.rootDirectory) path (some .directory) {}
      = some (.ok (m.rootDirectory, path)) := by
    unfold ObManager.startObject
    dsimp only
    rw [if_neg (by rintro (h | h) <;> contradiction), hx, map_some, if_pos (.inl hy)]
  unfold ObManager.obpLookUpObjectPath
  dsimp only
  rw [if_neg (by simp), if_neg (by simp), show obMaxLoop - 0 = 15 + 1 from rfl,
    ObManager.lookUpWithin, ObManager.lookUpWithin, startObject_root, hst]

theorem lookUp_separator (hrt : (ns.directory m.rootDirectory).isSome = true) :
    m.obpLookUpObjectPath none (some [pathSeparator]) (some .directory) 0 {} true ns
      = some (.ok m.rootDirectory, ns.obReferenceObjectByPointer m.rootDirectory) := by
  obtain ⟨⟨children, count⟩, hdr⟩ := isSome_iff_exists.1 hrt
  obtain ⟨x, hx, hb⟩ := bind_eq_some_iff.1 hdr
  have hob : (ns.obReferenceObjectByPointer m.rootDirectory).object m.rootDirectory
      = some { x with pointerCount := x.pointerCount + 1 } := by
    unfold Namespace.obReferenceObjectByPointer
    rw [ObSystem.modify_present hx]
    exact Namespace.object_set_self ..
  have hc : ({ x with pointerCount := x.pointerCount + 1 } : Object O).directory
      = some (children, count) := hb
  unfold ObManager.obpLookUpObjectPath
  dsimp only
  rw [if_neg (by simp), show obMaxLoop - 0 = 15 + 1 from rfl, ObManager.lookUpWithin,
    startObject_root, bind_some]
  dsimp only
  rw [show maxDepth = 99 + 1 from rfl, ObManager.lookUpLoop, hob, bind_some]
  rw [hc]
  dsimp only
  rw [ObManager.enterDirectory, if_pos rfl]

theorem denotes_iff (hrt : (ns.directory m.rootDirectory).isSome = true)
    (hlk : LooksIn m parent name dir rest) (found : O) (final : Name) :
    Denotes m ns parent name found final ↔ final = (splitName rest).2 ∧
      if (splitName rest).1 = [] then found = dir
      else ∃ ns', m.obpLookUpObjectPath (some dir) (some (splitName rest).1) (some .directory) 0 {} true
        ns = some (.ok found, ns') := by
  obtain ⟨hst, hh, -⟩ := hlk
  unfold Denotes pathBefore
  obtain ⟨rfl, -, rfl⟩ | ⟨rfl, rfl, rfl⟩ := hst
  · obtain h | ⟨path, last, rfl, h⟩ := name_cases rest
    · rw [splitName_alone h, if_neg h, if_pos rfl, some.injEq, eq_comm (a := dir)]
    · have hp : path ≠ [] := by
        rintro rfl
        exact hh rfl
      rw [splitName_path path h, if_pos (by simp), if_neg hp, if_neg hp]
  · obtain h | ⟨path, last, rfl, h⟩ := name_cases rest
    · have hsp : splitName (pathSeparator :: rest) = ([], rest) := splitName_path [] h
      rw [hsp, splitName_alone h, if_pos mem_cons_self, if_pos rfl, if_pos rfl, lookUp_separator hrt]
      refine and_congr_right fun _ => ⟨?_, ?_⟩
      · rintro ⟨ns', heq⟩
        cases heq
        rfl
      · rintro rfl
        exact ⟨_, rfl⟩
    · have hp : path ≠ [] := by
        rintro rfl
        exact hh rfl
      have hpt : path.head? ≠ some pathSeparator := by
        cases path with
        | nil => exact absurd rfl hp
        | cons c path => exact hh
      have hsp : splitName (pathSeparator :: (path ++ pathSeparator :: last))
          = (pathSeparator :: path, last) := splitName_path (pathSeparator :: path) h
      rw [hsp, splitName_path path h, if_pos mem_cons_self, if_neg (cons_ne_nil _ _),
        if_neg hp, lookUp_root hrt hp hpt]

/-! ## Calls -/

/-- What a call can rely on: the objects are well formed, the parent is a directory that stays, the
name is a string that is not empty, and the memory of a new object is free. -/
structure NameCall (m : ObManager O) (ns : Namespace O) (parent : Option O) (name : Name)
    (c : NewObject O) : Prop where
  wellFormed : m.WellFormed ns
  root : (ns.directory m.rootDirectory).isSome = true
  parent : ∀ d ∈ parent, ns.Alive d ∧ (ns.directory d).isSome = true
  nonempty : name ≠ []
  string : nul ∉ name
  free : ns.object c.object = none
  fresh : ¬ m.Findable ns c.object

/-- The linking of the object that a call creates fails. -/
def LinkingFails (m : ObManager O) (buffer : Nat → Char) (parent : Option O) (name : Name)
    (c : NewObject O) (ns : Namespace O) : Prop :=
  c.bodySize ≠ 0 ∧ c.noDirectory = false ∧ c.memory = true ∧ c.callback = .success ∧
    ∃ found final ns₁ status ns₂,
      m.normalizeVariables buffer ⟨parent, some name⟩ ns = some (.ok (), ⟨some found, some final⟩, ns₁) ∧
      (ns₁.set c.object (some ⟨c.permanent, none, none, 1, Namespace.newBody c.type⟩)).obLinkObject
        found c.object (some final) c.room = some (status, ns₂) ∧ status ≠ .success

/-- The variables are right after the call: they hold a proper name and the directory that it is in, or
they hold the old parent. -/
structure VariablesRight (m : ObManager O) (ns : Namespace O) (parent : Option O) (name : Name)
    (result : Except ObStatus Unit) (v : ParentAndName O) : Prop where
  proper : result = .ok () → ∃ final, v.name = some final ∧ final ≠ [] ∧ pathSeparator ∉ final
  directory : result = .ok () → ∃ found final, v = ⟨some found, some final⟩ ∧
    Denotes m ns parent name found final
  kept : ∀ status, result = .error status → v.parentDirectory = parent

/-- The variables are right, and an object that cannot be linked is destroyed. -/
structure ParentAndNameRight (m : ObManager O) (buffer : Nat → Char) (parent : Option O) (name : Name)
    (c : NewObject O) (ns : Namespace O) : Prop where
  normalized : ∃ result v ns₁, m.normalizeVariables buffer ⟨parent, some name⟩ ns
      = some (result, v, ns₁) ∧ VariablesRight m ns parent name result v
  undone : ∃ result ns', m.obCreateObjectCallback buffer ⟨parent, some name⟩ c ns
      = some (result, ns') ∧ (LinkingFails m buffer parent name c ns →
        ns'.object c.object = none ∧ ∀ p, ns'.references p = ns.references p)

/-- A new object can be linked in a directory under a name. -/
def LinksIn (m : ObManager O) (ns : Namespace O) (room : Bool) (found : O) (final : Name) : Prop :=
  room = true ∧ ∀ children count, m.body ns found = .directory children count →
    ∀ p ∈ children, ns.objectName p ≠ some final

/-- The calls that come by no defect: an absolute name is looked up, a name that is looked up does not
end in a separator, and an object that is created can be linked. -/
structure ParentAndNameRegular (m : ObManager O) (parent : Option O) (name : Name) (c : NewObject O)
    (ns : Namespace O) : Prop where
  resolves : parent = none → name.head? = some pathSeparator → ∃ dir rest found final,
    LooksIn m parent name dir rest ∧ Denotes m ns parent name found final
  ends : ∀ dir rest found final, LooksIn m parent name dir rest →
    Denotes m ns parent name found final → final ≠ []
  links : ∀ dir rest found final, LooksIn m parent name dir rest →
    Denotes m ns parent name found final → c.bodySize ≠ 0 → c.noDirectory = false →
      c.memory = true → c.callback = .success → LinksIn m ns c.room found final

section

variable {c : NewObject O}

/-- What a lookup leaves: references on what it can come by, also on a directory that it found. -/
structure LeftBy (m : ObManager O) (ns : Namespace O) (found : O) (refs : Multiset O) : Prop where
  findable : ∀ p ∈ refs, m.Findable ns p
  directory : (m.body ns found).type = .directory
  present : ns.object found ≠ none ∨ found ∈ refs

theorem normalizeVariables_cases (h : NameCall m ns parent name c) (buf : Nat → Char) :
    (∃ dir rest found final refs, LooksIn m parent name dir rest ∧
      Denotes m ns parent name found final ∧ LeftBy m ns found refs ∧
      m.normalizeVariables buf ⟨parent, some name⟩ ns
        = some (.ok (), ⟨some found, some final⟩, m.withRefs ns refs)) ∨
    (¬ ∃ dir rest found final, LooksIn m parent name dir rest ∧ Denotes m ns parent name found final) ∧
      ∃ st v ns₁, m.normalizeVariables buf ⟨parent, some name⟩ ns = some (.error st, v, ns₁) ∧
        v.parentDirectory = if parent = none ∧ name.head? = some pathSeparator then
          some m.rootDirectory else parent := by
  by_cases hls : ∃ dir rest, LooksIn m parent name dir rest
  · obtain ⟨dir, rest, hls⟩ := hls
    obtain ⟨hdr, hdrS⟩ : ns.Alive dir ∧ (ns.directory dir).isSome = true := by
      obtain ⟨⟨hp, -⟩ | ⟨-, rfl, -⟩, -⟩ := id hls
      · exact h.parent dir hp
      · exact ⟨h.wellFormed.root, h.root⟩
    rw [normalizeVariables_of_looksIn buf hls h.string]
    unfold normalizeIn
    by_cases hpt : (splitName rest).1 = []
    · rw [if_pos hpt]
      refine .inl ⟨dir, rest, dir, _, 0, hls, (denotes_iff h.root hls _ _).2
        ⟨rfl, by rw [if_pos hpt]⟩, ⟨by simp, ?_, .inl ?_⟩, by rw [ObManager.withRefs_zero]; rfl⟩
      · obtain ⟨⟨cs, count⟩, hdi⟩ := isSome_iff_exists.1 hdrS
        rw [ObManager.body_of_directory hdi]
        rfl
      · obtain ⟨x, hx, -⟩ := hdr
        rw [hx]
        exact some_ne_none x
    · obtain ⟨res, leak, hlp, hlk, hfo⟩ := ObManager.lookUp_does h.wellFormed
        (some dir) (by rintro _ hd; cases hd; exact hdr) (some (splitName rest).1)
        (some .directory) 0 {} 0
      rw [ObManager.withRefs_zero] at hlp
      rw [if_neg hpt, hlp]
      cases res with
      | error st =>
        refine .inr ⟨?_, st, _, _, rfl, ?_⟩
        · rintro ⟨dir', rest', found, final, hls', hdn⟩
          obtain ⟨rfl, rfl⟩ := looksIn_unique hls hls'
          obtain ⟨-, hok⟩ := (denotes_iff h.root hls _ _).1 hdn
          rw [if_neg hpt, hlp] at hok
          obtain ⟨ns', hok⟩ := hok
          cases hok
        · obtain ⟨⟨rfl, -, rfl⟩ | ⟨rfl, rfl, rfl⟩, -⟩ := hls
          · rw [if_neg (fun h => some_ne_none dir h.1)]
            rfl
          · rw [if_pos ⟨rfl, rfl⟩]
            rfl
      | ok found =>
        obtain ⟨hfn, hy⟩ := hfo found rfl
        refine .inl ⟨dir, rest, found, _, {found} + (leak + 0), hls,
          (denotes_iff h.root hls _ _).2 ⟨rfl, ?_⟩, ⟨fun p hp => ?_, hy rfl, .inr ?_⟩, rfl⟩
        · rw [if_neg hpt]
          exact ⟨_, hlp⟩
        · rw [add_zero] at hp
          rcases Multiset.mem_add.1 hp with hp | hp
          · exact Multiset.mem_singleton.1 hp ▸ hfn
          · exact hlk p hp
        · exact Multiset.mem_add.2 (.inl (Multiset.mem_singleton_self found))
  · have hnt : ∀ dir rest, ¬ LooksIn m parent name dir rest := fun dir rest hl => hls ⟨dir, rest, hl⟩
    obtain ⟨st, v, heq, hv⟩ := normalizeVariables_of_not ns buf hnt
    refine .inr ⟨?_, st, v, ns, heq, hv⟩
    rintro ⟨dir, rest, found, final, hl, -⟩
    exact hls ⟨dir, rest, hl⟩

variable {found : O} {refs : Multiset O}

/-- Linking a new object in a directory that has been looked up. -/
theorem link_spec (h : NameCall m ns parent name c)
    (hlf : LeftBy m ns found refs) {x : Object O} (hnm : x.objectName = none)
    (hp : x.parentDirectory = none) (final : Name) (room : Bool) :
    ∃ status ns₂, ((m.withRefs ns refs).set c.object (some x)).obLinkObject found c.object (some final)
        room = some (status, ns₂) ∧ (status = .success ↔ LinksIn m ns room found final) ∧
      (status ≠ .success → ns₂.object c.object ≠ none) := by
  obtain ⟨y, hy, hb⟩ : ∃ y, (m.withRefs ns refs).object found = some y ∧ y.body = m.body ns found := by
    cases hfn : ns.object found with
    | none =>
      exact ObManager.object_withRefs_of_mem m ns (hlf.present.resolve_left fun hne => hne hfn)
    | some y =>
      refine ⟨_, ObManager.object_withRefs_of_some hfn, ?_⟩
      rw [ObManager.body, hfn]
      rfl
  cases hdr : m.body ns found with
  | directory children count =>
    have hfr : (m.withRefs ns refs).object c.object = none := by
      rw [ObManager.object_withRefs_of_none h.free, if_pos]
      exact Multiset.count_eq_zero.2 fun hme => h.fresh (hlf.findable _ hme)
    have hne : found ≠ c.object := by
      rintro rfl
      rw [hfr] at hy
      cases hy
    have hme : c.object ∉ children := by
      intro hme
      obtain ⟨z, hz, -⟩ := h.wellFormed.children found children count hdr _ hme
      rw [h.free] at hz
      cases hz
    have hdc : (m.withRefs ns refs).directory found = some (children, count) := by
      unfold Namespace.directory
      rw [hy, bind_some]
      unfold Object.directory
      rw [hb, hdr]
    have hln : LinksIn m ns room found final ↔ room = true ∧
        ∀ p ∈ children, (m.withRefs ns refs).objectName p ≠ some final := by
      simp only [LinksIn, hdr, Body.directory.injEq, ObManager.objectName_withRefs]
      refine and_congr_right fun _ => ⟨fun ha => ha children count ⟨rfl, rfl⟩, ?_⟩
      rintro ha _ _ ⟨rfl, rfl⟩
      exact ha
    rw [Namespace.obLinkObject_new hnm hp hne hdc hme, hln]
    by_cases hrm : room = true
    · by_cases hc : ∀ p ∈ children, (m.withRefs ns refs).objectName p ≠ some final
      · rw [if_pos hrm, if_pos hc]
        exact ⟨_, _, rfl, iff_of_true rfl ⟨hrm, hc⟩, fun hne => absurd rfl hne⟩
      · rw [if_pos hrm, if_neg hc]
        refine ⟨_, _, rfl, iff_of_false (by simp) fun h => hc h.2, fun _ => ?_⟩
        rw [Namespace.object_set_self]
        exact some_ne_none _
    · rw [if_neg hrm]
      refine ⟨_, _, rfl, iff_of_false (by simp) fun h => hrm h.1, fun _ => ?_⟩
      rw [Namespace.object_set_self]
      exact some_ne_none _
  | _ =>
    have hty := hlf.directory
    rw [hdr] at hty
    cases hty

theorem createObject_returns (ns : Namespace O) (c : NewObject O) (tgt : Option (O × Name))
    (hln : ∀ dir name, tgt = some (dir, name) → ∃ r,
      (ns.set c.object (some ⟨c.permanent, none, none, 1, Namespace.newBody c.type⟩)).obLinkObject dir
        c.object (some name) c.room = some r) :
    ∃ r, ns.createObject c.object c.type c.permanent c.memory c.callback tgt c.room = some r := by
  unfold Namespace.createObject
  by_cases hmr : (!c.memory) = true
  · rw [if_pos hmr]
    exact ⟨_, rfl⟩
  · rw [if_neg hmr]
    by_cases hc : c.callback ≠ .success
    · rw [if_pos hc]
      exact ⟨_, rfl⟩
    · rw [if_neg hc]
      cases tgt with
      | none => exact ⟨_, rfl⟩
      | some tgt => exact hln tgt.1 tgt.2 rfl

theorem obCreateObjectCallback_returns (h : NameCall m ns parent name c) (buf : Nat → Char) :
    ∃ res ns', m.obCreateObjectCallback buf ⟨parent, some name⟩ c ns = some (res, ns') := by
  unfold ObManager.obCreateObjectCallback
  dsimp only
  by_cases hsize : c.bodySize = 0
  · rw [if_pos hsize]
    exact ⟨_, _, rfl⟩
  · rw [if_neg hsize]
    by_cases hno : c.noDirectory = true
    · obtain ⟨r, hr⟩ := createObject_returns ns c none nofun
      rw [if_pos hno, hr]
      exact ⟨_, _, rfl⟩
    · rw [if_neg hno]
      obtain ⟨dir, rest, found, final, refs, -, -, hlf, heq⟩ | ⟨-, st, v, ns₁, heq, -⟩ :=
        normalizeVariables_cases h buf
      · obtain ⟨r, hr⟩ := createObject_returns (m.withRefs ns refs) c (some (found, final)) (by
          rintro _ _ htr
          cases htr
          obtain ⟨st, ns₂, hln, -⟩ := link_spec h hlf
            (x := ⟨c.permanent, none, none, 1, Namespace.newBody c.type⟩) rfl rfl final c.room
          exact ⟨_, hln⟩)
        rw [heq, bind_some]
        dsimp only [bind_some, map_some]
        rw [hr]
        exact ⟨_, _, rfl⟩
      · rw [heq]
        exact ⟨_, _, rfl⟩

/-- A new object is destroyed when it cannot be linked just if that does not happen. -/
theorem undone_iff (h : NameCall m ns parent name c) (buf : Nat → Char) {final : Name} (hlf : LeftBy m ns found refs)
    (hok : m.normalizeVariables buf ⟨parent, some name⟩ ns
      = some (.ok (), ⟨some found, some final⟩, m.withRefs ns refs)) :
    (∃ res ns', m.obCreateObjectCallback buf ⟨parent, some name⟩ c ns = some (res, ns') ∧
      (LinkingFails m buf parent name c ns →
        ns'.object c.object = none ∧ ∀ p, ns'.references p = ns.references p)) ↔
    (c.bodySize ≠ 0 → c.noDirectory = false → c.memory = true → c.callback = .success →
      LinksIn m ns c.room found final) := by
  obtain ⟨st, ns₂, hln, hsc, hst⟩ := link_spec h hlf
    (x := ⟨c.permanent, none, none, 1, Namespace.newBody c.type⟩) rfl rfl final c.room
  have hfs : LinkingFails m buf parent name c ns → st ≠ .success := by
    rintro ⟨-, -, -, -, found', final', ns₁, st', ns₂', heq, hln', hne⟩
    rw [hok] at heq
    cases heq
    rw [hln] at hln'
    cases hln'
    exact hne
  constructor
  · rintro ⟨res, ns', heq, hu⟩ hsize hno hmr hc
    by_contra hls
    have hne : st ≠ .success := fun h => hls (hsc.1 h)
    have hrn : m.obCreateObjectCallback buf ⟨parent, some name⟩ c ns = some (ofStatus st, ns₂) := by
      unfold ObManager.obCreateObjectCallback
      rw [if_neg hsize, if_neg (by rw [hno]; exact Bool.false_ne_true), hok, bind_some]
      dsimp only [bind_some, map_some]
      unfold Namespace.createObject
      rw [if_neg (by rw [hmr]; exact Bool.false_ne_true)]
      dsimp only
      rw [if_neg (fun h => h hc), hln]
      rfl
    rw [hrn] at heq
    cases heq
    exact hst hne (hu ⟨hsize, hno, hmr, hc, found, final, _, st, ns₂, hok, hln, hne⟩).1
  · intro hls
    obtain ⟨res, ns', heq⟩ := obCreateObjectCallback_returns h buf
    refine ⟨res, ns', heq, fun hfl => ?_⟩
    obtain ⟨hsize, hno, hmr, hc, -⟩ := id hfl
    exact absurd (hsc.2 (hls hsize hno hmr hc)) (hfs hfl)

/-- **Parent and name.** A call of `ObpNormalizeParentDirectoryAndName` leaves the right parent and a
proper name, or the old parent, and an object created through it is destroyed if it cannot be linked,
exactly for the calls that come by none of the defects. -/
theorem parentAndName_right_iff (h : NameCall m ns parent name c) (buffer : Nat → Char) :
    ParentAndNameRight m buffer parent name c ns ↔ ParentAndNameRegular m parent name c ns := by
  obtain ⟨dir, rest, found, final, refs, hlk, hdn, hlf, hok⟩ |
    ⟨hnn, status, v, ns₁, he, hv⟩ := normalizeVariables_cases h buffer
  · constructor
    · rintro ⟨⟨result, v, ns₁, heq, hrg⟩, hu⟩
      rw [hok] at heq
      cases heq
      refine ⟨fun _ _ => ⟨dir, rest, found, final, hlk, hdn⟩, ?_, ?_⟩
      · intro _ _ found' final' _ hdn'
        obtain ⟨rfl, rfl⟩ := denotes_unique hdn hdn'
        obtain ⟨_, hnm, hne, -⟩ := hrg.proper rfl
        cases hnm
        exact hne
      · intro _ _ found' final' _ hdn'
        obtain ⟨rfl, rfl⟩ := denotes_unique hdn hdn'
        exact (undone_iff h buffer hlf hok).1 hu
    · rintro ⟨-, hen, hln⟩
      refine ⟨⟨_, _, _, hok, ⟨fun _ => ⟨final, rfl, hen dir rest found final hlk hdn, ?_⟩,
        fun _ => ⟨found, final, rfl, hdn⟩, ?_⟩⟩,
        (undone_iff h buffer hlf hok).2 (hln dir rest found final hlk hdn)⟩
      · rw [hdn.1]
        exact separator_not_mem_final name
      · intro status heq
        cases heq
  · have hrs : ∀ dir rest found final, LooksIn m parent name dir rest →
        ¬ Denotes m ns parent name found final :=
      fun dir rest found final hlk hdn => hnn ⟨dir, rest, found, final, hlk, hdn⟩
    constructor
    · rintro ⟨⟨result, v', ns₂, heq, hrg⟩, -⟩
      rw [he] at heq
      cases heq
      refine ⟨fun hp hh => ?_, ?_, ?_⟩
      · have hkp := hrg.kept status rfl
        rw [hv, if_pos ⟨hp, hh⟩, hp] at hkp
        cases hkp
      · exact fun dir rest found final hlk hdn => absurd hdn (hrs _ _ _ _ hlk)
      · exact fun dir rest found final hlk hdn => absurd hdn (hrs _ _ _ _ hlk)
    · rintro ⟨hrl, -, -⟩
      obtain ⟨result, ns', heq⟩ := obCreateObjectCallback_returns h buffer
      refine ⟨⟨_, _, _, he, ⟨nofun, nofun, fun _ _ => ?_⟩⟩, result, ns', heq, ?_⟩
      · rw [hv, if_neg (fun h => hnn (hrl h.1 h.2))]
      · rintro ⟨-, -, -, -, found, final, ns₂, -, -, hok, -⟩
        rw [he] at hok
        cases hok

end

/-- An object of a driver's type. -/
def newDevice : NewObject Nat := ⟨3, .other 0, false, false, 8, true, .success, true⟩

theorem newDevice_call {name : Name} (hnm : name ≠ []) (hnl : nul ∉ name) :
    NameCall ObManager.oneDevice ObManager.oneDeviceObjects none name newDevice where
  wellFormed := ObManager.oneDevice_wellFormed
  root := rfl
  parent := nofun
  nonempty := hnm
  string := hnl
  free := rfl
  fresh := by
    rintro (⟨x, hx, -⟩ | ⟨-, type, method, p, path, loopCount, rest, hmt, hok⟩)
    · cases hx
    · cases type with
      | other =>
        cases hmt
        cases hok
      | _ => cases hmt

/-- A second device in the root directory. -/
theorem parentAndName_right_iff_newDevice :
    ParentAndNameRight ObManager.oneDevice (fun _ => nul) none ['/', 'x'] newDevice
      ObManager.oneDeviceObjects := by
  have hlk : LooksIn ObManager.oneDevice none ['/', 'x'] 0 ['x'] :=
    ⟨.inr ⟨rfl, rfl, rfl⟩, by decide, by decide⟩
  have hdn : Denotes ObManager.oneDevice ObManager.oneDeviceObjects none ['/', 'x'] 0 ['x'] :=
    (denotes_iff rfl hlk _ _).2 ⟨rfl, rfl⟩
  refine (parentAndName_right_iff (newDevice_call (by decide) (by decide)) _).2 ⟨?_, ?_, ?_⟩
  · exact fun _ _ => ⟨_, _, _, _, hlk, hdn⟩
  · intro _ _ found final _ hdn'
    obtain ⟨-, rfl⟩ := denotes_unique hdn hdn'
    decide
  · intro _ _ found final _ hdn' _ _ _ _
    obtain ⟨rfl, rfl⟩ := denotes_unique hdn hdn'
    refine ⟨rfl, ?_⟩
    intro children count hb p hp
    cases hb
    obtain rfl := mem_singleton.1 hp
    decide

/-- The name of the root directory is accepted as an empty name, a failed call leaves the root
directory in the place of a null parent, and a second object with the name of a first one stays. -/
theorem parentAndName_not_right :
    (NameCall ObManager.oneDevice ObManager.oneDeviceObjects none ['/'] newDevice ∧
      ¬ ParentAndNameRight ObManager.oneDevice (fun _ => nul) none ['/'] newDevice
        ObManager.oneDeviceObjects) ∧
    (NameCall ObManager.oneDevice ObManager.oneDeviceObjects none ['/', '/'] newDevice ∧
      ¬ ParentAndNameRight ObManager.oneDevice (fun _ => nul) none ['/', '/'] newDevice
        ObManager.oneDeviceObjects) ∧
    NameCall ObManager.oneDevice ObManager.oneDeviceObjects none ['/', 'd'] newDevice ∧
      ¬ ParentAndNameRight ObManager.oneDevice (fun _ => nul) none ['/', 'd'] newDevice
        ObManager.oneDeviceObjects := by
  refine ⟨⟨newDevice_call (by decide) (by decide), ?_⟩,
    ⟨newDevice_call (by decide) (by decide), ?_⟩, newDevice_call (by decide) (by decide), ?_⟩
  · rintro ⟨⟨result, v, ns₁, heq, hrg⟩, -⟩
    have hrn : ObManager.oneDevice.normalizeVariables (fun _ => nul) ⟨none, some ['/']⟩
        ObManager.oneDeviceObjects = some (.ok (), ⟨some 0, some []⟩, ObManager.oneDeviceObjects) := rfl
    rw [hrn] at heq
    cases heq
    obtain ⟨final, hfn, hne, -⟩ := hrg.proper rfl
    cases hfn
    exact hne rfl
  · rintro ⟨⟨result, v, ns₁, heq, hrg⟩, -⟩
    have hrn : ObManager.oneDevice.normalizeVariables (fun _ => nul) ⟨none, some ['/', '/']⟩
        ObManager.oneDeviceObjects
          = some (.error .invalidParameter, ⟨some 0, some ['/']⟩, ObManager.oneDeviceObjects) := rfl
    rw [hrn] at heq
    cases heq
    cases hrg.kept _ rfl
  · rintro ⟨-, ⟨result, ns', heq, hu⟩⟩
    have hfl : LinkingFails ObManager.oneDevice (fun _ => nul) none ['/', 'd'] newDevice
        ObManager.oneDeviceObjects :=
      ⟨by decide, rfl, rfl, rfl, 0, ['d'], _, .nameCollision, _, rfl, rfl, by decide⟩
    have hb := congrArg (fun r => r.bind fun r => r.2.object 3) heq
    have hnn : ns'.object 3 = none := (hu hfl).1
    dsimp only [bind_some] at hb
    rw [hnn] at hb
    cases hb

end Boron.Ex.Services
