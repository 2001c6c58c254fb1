import Mathlib.Algebra.Ring.Nat
import Boron.Lib.Circular
import Boron.Lib.Listing
import Boron.Lib.Run

/-! # Reading directories of the temporary file system (`tmpfs/file.c`)

`TmpReadDir` goes through a directory by the address of the next entry, which it packs into an offset
with a 16-bit index. It goes by the address as long as the directory has the version that came with it,
and else finds its place again by the index. Only `TmpCreateFile` makes a new version; an entry that is
added by `TmpMakeHardLink`, or taken away, leaves the version as it is. A new directory has no entries
at all, not even `.` and `..`. `readDir_right_iff` says in which runs no read goes astray. -/

namespace Boron.Tmpfs

open List Option

structure TmpfsOffset where
  pointer : Nat
  fileIndex : Nat
  deriving DecidableEq

/-- What stands for the end of the directory. -/
def TmpfsOffset.last : TmpfsOffset := ⟨0xFFFFFFFFFFFF, 0xFFFF⟩

/-- The children of a directory: the links of their entries, the address of `ChildrenListHead` and the
version, with the addresses of the entries that are in memory. -/
structure ChildList where
  links : Links Nat
  head : Nat
  version : Nat
  children : List Nat

/-- `Iosb->ReadDir` and the entry that was read, or `STATUS_END_OF_FILE`. -/
inductive ReadDirResult
  | endOfFile
  | entry (dirListEntry : Nat) (nextOffset : TmpfsOffset) (version : Nat)
  deriving DecidableEq

namespace ChildList

variable (d : ChildList)

/-- The loop that finds the place by the index; `none` at the end. -/
def retrack : (fileIndex entry : Nat) → Option Nat
  | 0, entry => some entry
  | i + 1, entry =>
    let entry := d.links.next entry
    if entry = d.head then none else retrack i entry

/-- The part of `TmpReadDir` that goes by the pointer. -/
def readEntry (offset : TmpfsOffset) : ReadDirResult :=
  if offset.pointer = 0xFFFFFFFFFFFF then .endOfFile
  else
    let dirListEntry := 0xFFFF000000000000 ||| offset.pointer
    let nextEntry := d.links.next dirListEntry
    let next : TmpfsOffset :=
      if nextEntry = d.head then .last
      else ⟨nextEntry % 2 ^ 48, (offset.fileIndex + 1) % 2 ^ 16⟩
    .entry dirListEntry next d.version

/-- It looks for its place again. -/
def Restarts (offset : TmpfsOffset) (version : Nat) : Prop :=
  version ≠ d.version ∨ version = 0 ∨ offset = ⟨0, 0⟩

instance (offset : TmpfsOffset) (version : Nat) : Decidable (d.Restarts offset version) :=
  inferInstanceAs (Decidable (_ ∨ _))

def tmpReadDir (offset : TmpfsOffset) (version : Nat) : ReadDirResult :=
  if d.Restarts offset version then
    match d.retrack offset.fileIndex (d.links.next d.head) with
    | none => .endOfFile
    | some entry => d.readEntry { offset with pointer := entry % 2 ^ 48 }
  else d.readEntry offset

/-- `InsertTailList`, for an entry in fresh memory. -/
def insertTail (a : Nat) : ChildList :=
  { d with links := d.links.insertTail d.head a, children := d.children ++ [a] }

/-- `RemoveEntryList`, for an entry whose memory is then freed. -/
def removeEntry (a : Nat) : ChildList :=
  { d with links := d.links.remove a, children := d.children.erase a }

/-- The part of `TmpCreateFile` that adds the entry of the new file. -/
def tmpCreateFile (a : Nat) : ChildList :=
  { d.insertTail a with version := (d.version + 1) % 2 ^ 64 }

/-- The part that takes it away again when there is no memory for `.` and `..`. -/
def undoCreateFile (a : Nat) : ChildList := d.removeEntry a

def tmpMakeHardLink (a : Nat) : ChildList := d.insertTail a

def tmpUnlink (a : Nat) : ChildList := d.removeEntry a

/-- `TmpRemoveDir`, for a directory whose entry is among these. -/
def tmpRemoveDir (a : Nat) : ChildList := d.removeEntry a

/-- An address in the kernel's half. -/
def KernelAddress (a : Nat) : Prop := 0xFFFF800000000000 ≤ a ∧ a < 0xFFFFFFFFFFFFFFFF

instance (a : Nat) : Decidable (KernelAddress a) := inferInstanceAs (Decidable (_ ∧ _))

/-- The list is well formed, and in the kernel's half. -/
structure Sound : Prop where
  ring : d.links.Ring d.head d.children
  address : ∀ a ∈ d.head :: d.children, KernelAddress a

end ChildList

/-! ## Runs -/

/-- A directory and an iteration through it. `lost` tells whether the entry that the iteration is at
has been taken away, `astray` whether a call has used an entry that was not there. -/
structure Iteration where
  dir : ChildList
  offset : TmpfsOffset
  version : Nat
  lost : Bool
  astray : Bool

inductive IterationAction
  /-- `TmpReadDir`, unless it does not get the mutex. -/
  | tmpReadDir (locked : Bool)
  | tmpCreateFile (a : Nat)
  | undoCreateFile (a : Nat)
  | tmpMakeHardLink (a : Nat)
  | tmpUnlink (a : Nat)
  | tmpRemoveDir (a : Nat)
  /-- `IoSeekFile`. -/
  | ioSeekFile (offset : TmpfsOffset)
  deriving DecidableEq

namespace Iteration

/-- The file object was just opened. -/
def start (d : ChildList) : Iteration := ⟨d, ⟨0, 0⟩, 0, false, false⟩

/-- An entry is added, to memory that nothing else is in. -/
def add (s : Iteration) (a : Nat) (dir : ChildList) : Option Iteration :=
  if a ∈ s.dir.head :: s.dir.children ∨ ¬ ChildList.KernelAddress a then none
  else some { s with dir, lost := s.lost && decide (s.offset.pointer ≠ a % 2 ^ 48) }

/-- An entry is taken away. -/
def takeAway (s : Iteration) (a : Nat) (dir : ChildList) : Option Iteration :=
  if a ∈ s.dir.children then
    some { s with dir, lost := s.lost || decide (s.offset.pointer = a % 2 ^ 48) }
  else none

def step (s : Iteration) : IterationAction → Option Iteration
  | .tmpReadDir locked =>
    if locked then
      match s.dir.tmpReadDir s.offset s.version with
      | .endOfFile => some s
      | .entry e nextOffset version =>
        some ⟨s.dir, nextOffset, version, false, s.astray || decide (e ∉ s.dir.children)⟩
    else some s
  | .tmpCreateFile a => s.add a (s.dir.tmpCreateFile a)
  | .undoCreateFile a => s.takeAway a (s.dir.undoCreateFile a)
  | .tmpMakeHardLink a => s.add a (s.dir.tmpMakeHardLink a)
  | .tmpUnlink a => s.takeAway a (s.dir.tmpUnlink a)
  | .tmpRemoveDir a => s.takeAway a (s.dir.tmpRemoveDir a)
  | .ioSeekFile offset => some { s with offset, version := 0, lost := false }

/-- A read that starts from the front finds the directory not empty, and one that goes by its pointer
finds that the entry has not been taken away. -/
def Ready (s : Iteration) : Prop :=
  (s.dir.Restarts s.offset s.version → s.dir.children ≠ [] ∨ s.offset.fileIndex ≠ 0)
    ∧ (¬ s.dir.Restarts s.offset s.version → s.lost = false)

instance (s : Iteration) : Decidable s.Ready := inferInstanceAs (Decidable (_ ∧ _))

/-- The condition on a step. -/
def Keeps (s : Iteration) : IterationAction → Prop
  | .tmpReadDir true => s.Ready
  | _ => True

instance (s : Iteration) (a : IterationAction) : Decidable (s.Keeps a) := by
  unfold Keeps
  split <;> infer_instance

/-- An iteration from the offset and version of `c` on, if nothing is changed. -/
def next (d : ChildList) (c : TmpfsOffset × Nat) : Option (Nat × TmpfsOffset × Nat) :=
  match d.tmpReadDir c.1 c.2 with
  | .endOfFile => none
  | .entry e nextOffset version => some (e, nextOffset, version)

/-- What is asked for. No call has used an entry that was not there. If nothing is changed any more the
iteration ends, and one that begins gives every entry once and ends. An offset from a seek has only its
index looked at. -/
structure Right (s : Iteration) : Prop where
  found : s.astray = false
  ends : s.Ready → s.dir.version ≠ 0 → ∃ es c, Lists (next s.dir) (s.offset, s.version) es c
    ∧ next s.dir c = none ∧ es <:+ s.dir.children
  lists : s.dir.children ≠ [] → s.dir.version ≠ 0 → s.dir.children.Nodup
    ∧ ∃ c, Lists (next s.dir) (⟨0, 0⟩, 0) s.dir.children c ∧ next s.dir c = none
  sought : ∀ i p p', s.dir.tmpReadDir ⟨p, i⟩ 0 = s.dir.tmpReadDir ⟨p', i⟩ 0

end Iteration

/-! ## One read -/

namespace ChildList

variable {d : ChildList} {a i : Nat} {xs ys : List Nat} {offset : TmpfsOffset} {version : Nat}

/-- The address comes back out of the offset. -/
theorem KernelAddress.unpack (h : KernelAddress a) : 0xFFFF000000000000 ||| a % 2 ^ 48 = a := by
  obtain ⟨hw, hh⟩ := h
  have hmd : a % 2 ^ 48 < 2 ^ 48 := Nat.mod_lt _ (by decide)
  have hor := Nat.two_pow_add_eq_or_of_lt hmd 0xFFFF
  have hb : 2 ^ 48 * 0xFFFF = 0xFFFF000000000000 := by decide
  rw [hb] at hor
  rw [← hor]
  omega

theorem KernelAddress.pointer_ne (h : KernelAddress a) : a % 2 ^ 48 ≠ 0xFFFFFFFFFFFF := by
  obtain ⟨hw, hh⟩ := h
  omega

/-- Two entries do not have the same pointer. -/
theorem KernelAddress.pointer_inj {b : Nat} (ha : KernelAddress a) (hb : KernelAddress b)
    (h : a % 2 ^ 48 = b % 2 ^ 48) : a = b := by
  rw [← ha.unpack, h, hb.unpack]

/-- Where an iteration goes on after an entry. -/
def offsetOf (d : ChildList) (i entry : Nat) : TmpfsOffset :=
  if entry = d.head then .last else ⟨entry % 2 ^ 48, i % 2 ^ 16⟩

theorem readEntry_eq (ha : KernelAddress a) :
    d.readEntry ⟨a % 2 ^ 48, i⟩ = .entry a (d.offsetOf (i + 1) (d.links.next a)) d.version := by
  unfold readEntry
  rw [if_neg ha.pointer_ne]
  simp only [ha.unpack]
  rfl

/-- Finding the place by the index counts from the given entry on. -/
theorem retrack_eq (hd : d.Sound) (hp : d.children = xs ++ a :: ys) (i : Nat) :
    d.retrack i a = (a :: ys)[i]? := by
  induction i generalizing xs a ys with
  | zero => rfl
  | succ i ih =>
    have hrn := hd.ring
    rw [hp] at hrn
    rw [retrack]
    cases ys with
    | nil =>
      have hnext : d.links.next a = d.head := hrn.next_eq
      rw [hnext, if_pos rfl]
      rfl
    | cons b ys =>
      have hnext : d.links.next a = b := hrn.next_eq
      have hb : b ≠ d.head := by
        rintro rfl
        exact hrn.head_not_mem (by simp)
      have hp' : d.children = (xs ++ [a]) ++ b :: ys := by simp [hp]
      rw [hnext, if_neg hb, ih hp', List.getElem?_cons_succ]

/-- In a directory that is not empty a read that starts again is one at the place of the index. -/
theorem tmpReadDir_restart (hd : d.Sound) (hne : d.children ≠ []) (h : d.Restarts offset version) :
    d.tmpReadDir offset version = match d.children[offset.fileIndex]? with
      | none => .endOfFile
      | some a => d.readEntry ⟨a % 2 ^ 48, offset.fileIndex⟩ := by
  cases hc : d.children with
  | nil => exact absurd hc hne
  | cons a ys =>
    have hrn := hd.ring
    rw [hc] at hrn
    unfold tmpReadDir
    rw [if_pos h, hrn.next_head, @retrack_eq _ _ [] _ hd hc]

/-- In an empty one it takes the head of the list for an entry, if it starts from the front. -/
theorem tmpReadDir_empty (hd : d.Sound) (hnil : d.children = []) (h : d.Restarts offset version) :
    d.tmpReadDir offset version = if offset.fileIndex = 0
      then .entry d.head .last d.version else .endOfFile := by
  have hrn := hd.ring
  rw [hnil] at hrn
  have hnext : d.links.next d.head = d.head := by
    simpa [Links.isEmpty] using hrn.isEmpty_iff.2 rfl
  unfold tmpReadDir
  rw [if_pos h, hnext]
  cases hi : offset.fileIndex with
  | zero =>
    simp only [retrack, if_true]
    rw [← hi]
    have := readEntry_eq (d := d) (i := offset.fileIndex) (hd.address d.head (by simp))
    rw [this, offsetOf, hnext, if_pos rfl]
  | succ i => simp [retrack, hnext]

end ChildList

namespace Iteration

open ChildList (KernelAddress)

variable {d : ChildList} {s t : Iteration} {action : IterationAction} {a i : Nat} {xs ys : List Nat}

/-! ## Iterations without changes -/

theorem not_restarts (hvr : d.version ≠ 0) (ha : KernelAddress a) :
    ¬ d.Restarts ⟨a % 2 ^ 48, i⟩ d.version := by
  have hp : a % 2 ^ 48 ≠ 0 := by
    obtain ⟨hw, hh⟩ := ha
    omega
  rintro (h | h | h)
  · exact h rfl
  · exact hvr h
  · exact hp (congrArg TmpfsOffset.pointer h)

theorem next_last (hvr : d.version ≠ 0) : next d (.last, d.version) = none := by
  have hrs : ¬ d.Restarts .last d.version := by
    simp [ChildList.Restarts, hvr, TmpfsOffset.last]
  unfold next ChildList.tmpReadDir
  rw [if_neg hrs]
  rfl

/-- From where a read goes on after an entry, the rest of the directory is read, and then no more. -/
theorem lists_offsetOf (hd : d.Sound) (hvr : d.version ≠ 0)
    (hp : d.children = xs ++ a :: ys) (i : Nat) :
    ∃ c, Lists (next d) (d.offsetOf i (d.links.next a), d.version) ys c ∧ next d c = none := by
  induction ys generalizing xs a i with
  | nil =>
    have hrn := hd.ring
    rw [hp] at hrn
    refine ⟨(.last, d.version), ?_, next_last hvr⟩
    rw [hrn.next_eq, headD_nil, ChildList.offsetOf, if_pos rfl]
    exact .nil _
  | cons b ys ih =>
    have hrn := hd.ring
    rw [hp] at hrn
    have hb : b ≠ d.head := by
      rintro rfl
      exact hrn.head_not_mem (by simp)
    have hkr : KernelAddress b := hd.address b (by simp [hp])
    obtain ⟨c, hrs, he⟩ := @ih b (xs ++ [a]) (by simp [hp]) (i % 2 ^ 16 + 1)
    refine ⟨c, .cons ?_ hrs, he⟩
    rw [hrn.next_eq, headD_cons, ChildList.offsetOf, if_neg hb]
    unfold next ChildList.tmpReadDir
    rw [if_neg (not_restarts hvr hkr), ChildList.readEntry_eq hkr]

theorem lists_of_entry (hd : d.Sound) (hvr : d.version ≠ 0)
    (hp : d.children = xs ++ a :: ys) {offset : TmpfsOffset} {version : Nat}
    (hread : d.tmpReadDir offset version = d.readEntry ⟨a % 2 ^ 48, i⟩) :
    ∃ c, Lists (next d) (offset, version) (a :: ys) c ∧ next d c = none := by
  have hkr : KernelAddress a := hd.address a (by simp [hp])
  obtain ⟨c, hrs, he⟩ := lists_offsetOf hd hvr hp (i + 1)
  refine ⟨c, .cons ?_ hrs, he⟩
  unfold next
  rw [hread, ChildList.readEntry_eq hkr]

/-- The invariant: the list is sound, and as long as no read has gone astray the offset of an iteration
that has begun is that of an entry, or of the end. -/
structure Inv (s : Iteration) : Prop where
  dir : s.dir.Sound
  offset : s.astray = false → s.version ≠ 0 → s.offset = .last ∧ s.lost = false
    ∨ ∃ a i, s.offset = ⟨a % 2 ^ 48, i⟩ ∧ KernelAddress a ∧ (s.lost = false ↔ a ∈ s.dir.children)

theorem start_inv (hd : d.Sound) : (start d).Inv := ⟨hd, fun _ h => absurd rfl h⟩

/-- A read is at the end, or at an entry, or it is not ready and uses what is no entry. -/
theorem read_cases (hs : s.Inv) (hfn : s.astray = false) :
    s.Ready ∧ s.dir.tmpReadDir s.offset s.version = .endOfFile
    ∨ (s.Ready ∧ ∃ xs a ys i, s.dir.children = xs ++ a :: ys
      ∧ s.dir.tmpReadDir s.offset s.version = s.dir.readEntry ⟨a % 2 ^ 48, i⟩)
    ∨ ¬ s.Ready ∧ ∃ e no version, e ∉ s.dir.children
      ∧ s.dir.tmpReadDir s.offset s.version = .entry e no version := by
  by_cases hrs : s.dir.Restarts s.offset s.version
  · have hrd : s.Ready ↔ s.dir.children ≠ [] ∨ s.offset.fileIndex ≠ 0 :=
      ⟨fun h => h.1 hrs, fun h => ⟨fun _ => h, fun hnt => absurd hrs hnt⟩⟩
    by_cases hnil : s.dir.children = []
    · have hread := ChildList.tmpReadDir_empty hs.dir hnil hrs
      by_cases hz : s.offset.fileIndex = 0
      · rw [if_pos hz] at hread
        refine .inr (.inr ⟨by simp [hrd, hnil, hz], _, _, _, ?_, hread⟩)
        simp [hnil]
      · rw [if_neg hz] at hread
        exact .inl ⟨hrd.2 (.inr hz), hread⟩
    · have hread := ChildList.tmpReadDir_restart hs.dir hnil hrs
      cases hgt : s.dir.children[s.offset.fileIndex]? with
      | none =>
        rw [hgt] at hread
        exact .inl ⟨hrd.2 (.inl hnil), hread⟩
      | some a =>
        rw [hgt] at hread
        obtain ⟨xs, ys, hp⟩ := append_of_mem (mem_of_getElem? hgt)
        exact .inr (.inl ⟨hrd.2 (.inl hnil), xs, a, ys, _, hp, hread⟩)
  · have hvr : s.version ≠ 0 := fun h => hrs (.inr (.inl h))
    have hrd : s.Ready ↔ s.lost = false :=
      ⟨fun h => h.2 hrs, fun h => ⟨fun hr => absurd hr hrs, fun _ => h⟩⟩
    have hread : s.dir.tmpReadDir s.offset s.version = s.dir.readEntry s.offset := if_neg hrs
    rcases hs.offset hfn hvr with ⟨hof, hls⟩ | ⟨a, i, hof, hkr, hls⟩
    · refine .inl ⟨hrd.2 hls, ?_⟩
      rw [hread, hof]
      rfl
    · rw [hof] at hread
      by_cases ha : a ∈ s.dir.children
      · obtain ⟨xs, ys, hp⟩ := append_of_mem ha
        rw [hof]
        exact .inr (.inl ⟨hrd.2 (hls.2 ha), xs, a, ys, i, hp, hread⟩)
      · rw [ChildList.readEntry_eq hkr] at hread
        rw [hof]
        exact .inr (.inr ⟨fun h => ha (hls.1 (hrd.1 h)), _, _, _, ha, hread⟩)

/-- As long as no read has gone astray everything is as asked for. -/
theorem Inv.right (hs : s.Inv) (hfn : s.astray = false) : s.Right := by
  refine ⟨hfn, ?_, ?_, ?_⟩
  · intro hrd hvr
    rcases read_cases hs hfn with ⟨-, hread⟩ | ⟨-, xs, a, ys, i, hp, hread⟩ | ⟨hnt, -⟩
    · refine ⟨[], _, .nil _, ?_, nil_suffix⟩
      simp [next, hread]
    · obtain ⟨c, hls, he⟩ := lists_of_entry hs.dir hvr hp hread
      exact ⟨a :: ys, c, hls, he, hp ▸ suffix_append xs (a :: ys)⟩
    · exact absurd hrd hnt
  · intro hne hvr
    refine ⟨hs.dir.ring.nodup, ?_⟩
    cases hc : s.dir.children with
    | nil => exact absurd hc hne
    | cons a ys =>
      have hrs : s.dir.Restarts ⟨0, 0⟩ 0 := .inr (.inl rfl)
      have hread := ChildList.tmpReadDir_restart hs.dir hne hrs
      rw [hc] at hread
      exact @lists_of_entry _ _ _ [] _ hs.dir hvr hc _ _ hread
  · intro i p p'
    have hrs : ∀ p, s.dir.Restarts ⟨p, i⟩ 0 := fun p => .inr (.inl rfl)
    unfold ChildList.tmpReadDir
    rw [if_pos (hrs p), if_pos (hrs p')]

/-! ## Steps -/

theorem insertTail_sound (hd : d.Sound) (ha : a ∉ d.head :: d.children) (hkr : KernelAddress a) :
    (d.insertTail a).Sound := by
  refine ⟨hd.ring.insertTail ha, fun b hb => ?_⟩
  rw [ChildList.insertTail, ← cons_append, mem_append, mem_singleton] at hb
  rcases hb with hb | rfl
  · exact hd.address b hb
  · exact hkr

theorem removeEntry_sound (hd : d.Sound) (ha : a ∈ d.children) : (d.removeEntry a).Sound := by
  refine ⟨hd.ring.remove ha, fun b hb => hd.address b ?_⟩
  rcases mem_cons.1 hb with rfl | hb
  · exact mem_cons_self
  · exact mem_cons_of_mem _ (mem_of_mem_erase hb)

theorem Inv.add {dir : ChildList} {version : Nat} (hs : s.Inv)
    (hdr : dir = { s.dir.insertTail a with version }) (h : s.add a dir = some t) : t.Inv := by
  unfold Iteration.add at h
  split at h
  · cases h
  · next hfr =>
      obtain ⟨hfr, hkr⟩ : a ∉ s.dir.head :: s.dir.children ∧ KernelAddress a := by
        simpa only [not_or, not_not] using hfr
      cases h
      subst hdr
      obtain ⟨hrn, ha⟩ := insertTail_sound hs.dir hfr hkr
      refine ⟨⟨hrn, ha⟩, fun hfn hvr => ?_⟩
      rcases hs.offset hfn hvr with ⟨hof, hls⟩ | ⟨b, i, hof, hb, hls⟩
      · exact .inl ⟨hof, by simp [hls]⟩
      · refine .inr ⟨b, i, hof, hb, ?_⟩
        have hsm : s.offset.pointer = a % 2 ^ 48 ↔ b = a := by
          rw [hof]
          exact ⟨fun h => hb.pointer_inj hkr h, fun h => h ▸ rfl⟩
        simp only [ChildList.insertTail, mem_append, mem_singleton, Bool.and_eq_false_iff,
          decide_eq_false_iff_not, not_not, hls, ne_eq, hsm]

theorem Inv.takeAway (hs : s.Inv) (h : s.takeAway a (s.dir.removeEntry a) = some t) : t.Inv := by
  unfold Iteration.takeAway at h
  split at h
  · next ha =>
      cases h
      have hkr := hs.dir.address a (mem_cons_of_mem _ ha)
      refine ⟨removeEntry_sound hs.dir ha, fun hfn hvr => ?_⟩
      rcases hs.offset hfn hvr with ⟨hof, hls⟩ | ⟨b, i, hof, hb, hls⟩
      · have hne : s.offset.pointer ≠ a % 2 ^ 48 := by
          rw [hof]
          exact Ne.symm hkr.pointer_ne
        exact .inl ⟨hof, by simp only [hls, decide_eq_false hne, Bool.or_false]⟩
      · refine .inr ⟨b, i, hof, hb, ?_⟩
        have hsm : s.offset.pointer = a % 2 ^ 48 ↔ b = a := by
          rw [hof]
          exact ⟨fun h => hb.pointer_inj hkr h, fun h => h ▸ rfl⟩
        simp only [ChildList.removeEntry, Bool.or_eq_false_iff, hls, decide_eq_false_iff_not, hsm,
          hs.dir.ring.nodup.mem_erase_iff]
        exact and_comm
  · cases h

/-- A read that has found an entry goes on at the one behind it. -/
theorem Inv.entry (hs : s.Inv) (hp : s.dir.children = xs ++ a :: ys) (i version : Nat) (ast : Bool) :
    Inv ⟨s.dir, s.dir.offsetOf i (s.dir.links.next a), version, false, ast⟩ := by
  have hrn := hs.dir.ring
  rw [hp] at hrn
  refine ⟨hs.dir, fun _ _ => ?_⟩
  rw [hrn.next_eq]
  cases ys with
  | nil => exact .inl ⟨if_pos rfl, rfl⟩
  | cons b ys =>
    have hb : b ≠ s.dir.head := by
      rintro rfl
      exact hrn.head_not_mem (by simp)
    have hme : b ∈ s.dir.children := by simp [hp]
    exact .inr ⟨b, i % 2 ^ 16, if_neg hb, hs.dir.address b (mem_cons_of_mem _ hme), iff_of_true rfl hme⟩

theorem Inv.step (hs : s.Inv) (h : step s action = some t) : t.Inv := by
  cases action with
  | tmpReadDir loc =>
    cases loc with
    | false =>
      cases h
      exact hs
    | true =>
      simp only [Iteration.step, if_true] at h
      cases hfn : s.astray with
      | true =>
        cases hread : s.dir.tmpReadDir s.offset s.version with
        | endOfFile =>
          rw [hread] at h
          cases h
          exact hs
        | entry e no version =>
          rw [hread] at h
          cases h
          exact ⟨hs.dir, fun hnt => by simp [hfn] at hnt⟩
      | false =>
        rcases read_cases hs hfn with
          ⟨-, hread⟩ | ⟨-, xs, a, ys, i, hp, hread⟩ | ⟨-, e, no, version, he, hread⟩
        · rw [hread] at h
          cases h
          exact hs
        · have hkr := hs.dir.address a (by simp [hp])
          rw [hread, ChildList.readEntry_eq hkr] at h
          cases h
          exact hs.entry hp _ _ _
        · rw [hread] at h
          cases h
          exact ⟨hs.dir, fun hnt => by simp [he] at hnt⟩
  | tmpCreateFile a => exact hs.add rfl h
  | tmpMakeHardLink a => exact hs.add rfl h
  | undoCreateFile a | tmpUnlink a | tmpRemoveDir a => exact hs.takeAway h
  | ioSeekFile offset =>
    cases h
    exact ⟨hs.dir, fun _ hvr => absurd rfl hvr⟩

/-- A read goes astray just if it is not ready. -/
theorem astray_step_iff (hs : s.Inv) (hfn : s.astray = false) (h : step s action = some t) :
    t.astray = false ↔ s.Keeps action := by
  have ha : ∀ {a : Nat} {dir : ChildList}, s.add a dir = some t → t.astray = false := by
    intro a dir h
    unfold Iteration.add at h
    split at h
    · cases h
    · cases h
      exact hfn
  have htk : ∀ {a : Nat} {dir : ChildList}, s.takeAway a dir = some t → t.astray = false := by
    intro a dir h
    unfold Iteration.takeAway at h
    split at h
    · cases h
      exact hfn
    · cases h
  cases action with
  | tmpReadDir loc =>
    cases loc with
    | false =>
      cases h
      exact iff_of_true hfn trivial
    | true =>
      simp only [Iteration.step, if_true] at h
      rcases read_cases hs hfn with ⟨hrd, hread⟩ | ⟨hrd, xs, a, ys, i, hp, hread⟩
        | ⟨hnt, e, nextOffset, version, he, hread⟩
      · rw [hread] at h
        cases h
        exact iff_of_true hfn hrd
      · have hkr := hs.dir.address a (by simp [hp])
        rw [hread, ChildList.readEntry_eq hkr] at h
        cases h
        exact iff_of_true (by simp [hfn, hp]) hrd
      · rw [hread] at h
        cases h
        exact iff_of_false (by simp [he]) hnt
  | tmpCreateFile a | tmpMakeHardLink a => exact iff_of_true (ha h) trivial
  | undoCreateFile a | tmpUnlink a | tmpRemoveDir a => exact iff_of_true (htk h) trivial
  | ioSeekFile offset =>
    cases h
    exact iff_of_true hfn trivial

/-- **In a run from any sound directory on, no read goes astray, each iteration that is left alone ends,
one that begins gives every entry once, and the pointer of an offset from a seek is not used, just if no
read starts from the front of an empty directory, and none goes on by a pointer to an entry that was
taken away.** -/
theorem readDir_right_iff (d : ChildList) (hd : d.Sound) (actions : List IterationAction) :
    Stays step Right (start d) actions ↔ Along step Keeps (start d) actions := by
  have hin : Along step (fun s _ => s.Inv) (start d) actions :=
    .of_invariant (start_inv hd) fun _ _ _ hs h => hs.step h
  refine stays_iff_along (fun s action t hrg hs h => ?_) ((start_inv hd).right rfl) hin
  rw [← astray_step_iff hs hrg.found h]
  exact ⟨fun h => h.found, fun hfn => (hs.step h).right hfn⟩

/-- A directory that was just created. -/
def emptyDirectory : ChildList where
  links := Links.initHead ⟨fun _ => 0, fun _ => 0⟩ 0xFFFF800000001000
  head := 0xFFFF800000001000
  version := 1
  children := []

theorem emptyDirectory_sound : emptyDirectory.Sound where
  ring := Links.ring_initHead ..
  address a ha := by
    obtain rfl : a = _ := mem_singleton.1 ha
    decide

/-- Two files, the first of which is removed after it was read. -/
theorem readDir_right_two : Stays step Right (start emptyDirectory) [.tmpCreateFile 0xFFFF800000002000,
      .tmpCreateFile 0xFFFF800000003000, .tmpReadDir true, .tmpUnlink 0xFFFF800000002000,
      .tmpReadDir true, .tmpReadDir true] :=
  (readDir_right_iff emptyDirectory emptyDirectory_sound _).2 (by decide +kernel)

/-- An empty directory is read; and the second of two files is removed after the first was read. -/
theorem readDir_astray : ¬ Stays step Right (start emptyDirectory) [.tmpReadDir true]
      ∧ ¬ Stays step Right (start emptyDirectory) [.tmpCreateFile 0xFFFF800000002000,
        .tmpCreateFile 0xFFFF800000003000, .tmpReadDir true, .tmpUnlink 0xFFFF800000003000,
        .tmpReadDir true] := by
  constructor
  · intro h
    exact absurd (h.at_end rfl).found (by decide +kernel)
  · intro h
    exact absurd (h.at_end rfl).found (by decide +kernel)

end Iteration

end Boron.Tmpfs
