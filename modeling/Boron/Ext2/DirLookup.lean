import Mathlib.Data.List.TakeWhile
import Boron.Ext2.Inode
import Boron.Lib.Loop
import Boron.Lib.Word
import Boron.Ob.PathHops

/-! # Looking up a name in a directory (`ext2fs/inode.c`, `Ext2ReadDir` and `Ext2ParseDir`)

A directory is a file of records, each of which says how far it is to the next one. The loop of
`Ext2ParseDir` follows these lengths wherever they lead, also back to where it was: a record of length
zero is read for ever. It takes the first record whose name, cut to 255 bytes, is the next component of
the path, whether the record is in use or not, and gives up at a record with an empty name, because
there are no buffers of no bytes. -/

namespace Boron.Ext2

open List Option

open Boron.Io (Byte)
open Boron.Ob (Name component afterComponent pathSeparator)

/-! ## Data -/

/-- The `BSTATUS` values of a lookup. -/
inductive DirStatus
  | success
  | endOfFile
  | nameNotFound
  | notADirectory
  | unimplemented
  | insufficientMemory
  | invalidParameter
  | other (code : Nat)
  deriving DecidableEq

/-- What a directory contains. -/
structure Directory where
  version : Nat
  size : Nat
  byte : Nat → Byte
  size_lt : size < wordSize

/-- What a lookup meets: how the buffer for the read at an offset and the views behind it can be had,
and how an inode can be opened. -/
structure LookupOutcomes where
  mdl : Nat → DirStatus
  views : Nat → DirStatus
  openInode : Nat → DirStatus

/-- The parts of an `IO_DIRECTORY_ENTRY` and of its status block that a lookup uses; the name ends at
its first NUL. -/
structure DirectoryEntry where
  name : Name
  inodeNumber : Nat
  nextOffset : Nat

/-- What `Ext2ParseDir` answers: the file itself, an inode with the `ReparsePath`, or a failure. -/
inductive Parsed
  | itself
  | found (inodeNumber : Nat) (reparsePath : Name)
  | failed (status : DirStatus)
  deriving DecidableEq

inductive FileType
  | directory
  | symbolicLink
  | other

/-- `sizeof(EXT2_DIRENT)`. -/
def direntSize : Nat := 8

def ioMaxName : Nat := 256

namespace Directory

variable (d : Directory) (e : LookupOutcomes) (path : Name)

/-- A 16-bit number of the directory. -/
def half (offset : Nat) : Nat := (d.byte offset).toNat + 2 ^ 8 * (d.byte (offset + 1)).toNat

/-! ## The fields of an `EXT2_DIRENT` -/

def inodeNumber (offset : Nat) : Nat := Image.word d.byte offset

def recordLength (offset : Nat) : Nat := d.half (offset + 4)

/-- `NameLength16` of a version 0 file system, else `NameLength`. -/
def nameLength (offset : Nat) : Nat :=
  if d.version = 0 then d.half (offset + 6) else (d.byte (offset + 6)).toNat

/-- The first `n` bytes of the name. -/
def name (offset n : Nat) : Name :=
  (List.range n).map fun i => Char.ofNat (d.byte (offset + direntSize + i)).toNat

/-! ## The code -/

/-- `IoReadFile` of the directory: how many bytes are read. -/
def ioReadFile (size offset : Nat) : Except DirStatus Nat :=
  -- `MmCreateMdl` makes no buffer of no bytes
  if size = 0 then .error .insufficientMemory
  else if e.mdl offset ≠ .success then .error (e.mdl offset)
  else if wordSize ≤ size + offset then .error .invalidParameter
  else if d.size ≤ offset then .ok 0
  else if e.views offset ≠ .success then .error (e.views offset)
  else .ok (min size (d.size - offset))

def ext2ReadDir (offset : Nat) : Except DirStatus DirectoryEntry :=
  if d.size ≤ offset then .error .endOfFile
  else
    match d.ioReadFile e direntSize offset with
    | .error status => .error status
    | .ok bytesRead =>
      if bytesRead < direntSize then .error .endOfFile
      else
        let nameLength := min (d.nameLength offset) (ioMaxName - 1)
        match d.ioReadFile e nameLength (addW offset direntSize) with
        | .error status => .error status
        | .ok bytesRead =>
          if bytesRead < nameLength then .error .endOfFile
          else
            .ok ⟨(d.name offset nameLength).takeWhile (· ≠ Char.ofNat 0), d.inodeNumber offset,
              addW offset (d.recordLength offset)⟩

/-- A turn of the loop of `Ext2ParseDir`. -/
def parseBody (offset : Nat) : Nat ⊕ Parsed :=
  match d.ext2ReadDir e offset with
  | .error status => .inr (.failed (if status = .endOfFile then .nameNotFound else status))
  | .ok entry =>
    let matched := Ob.Namespace.obMatchPathName entry.name path
    if matched = 0 then .inl entry.nextOffset
    else
      match e.openInode entry.inodeNumber with
      | .success => .inr (.found entry.inodeNumber (path.drop matched))
      | status => .inr (.failed status)

/-- `Ext2ParseDir`, with at most `fuel` turns of its loop. -/
def ext2ParseDir (fileType : FileType) (fuel : Nat) : Option Parsed :=
  match fileType with
  | .directory =>
    if path = [] ∨ path.head? = some pathSeparator then some .itself
    else loop (d.parseBody e path) fuel 0
  | .symbolicLink => some (.failed .unimplemented)
  | .other => if path = [] then some .itself else some (.failed .notADirectory)

/-! ## What is asked of a lookup -/

/-- A record that is in use. -/
structure Used (offset : Nat) : Prop where
  inodeNumber : d.inodeNumber offset ≠ 0
  nonempty : d.nameLength offset ≠ 0
  chars : ∀ c ∈ d.name offset (d.nameLength offset), c ≠ Char.ofNat 0 ∧ c ≠ pathSeparator

/-- A record has room for its name, which is one if the record is in use. -/
structure RecordOk (offset : Nat) : Prop where
  room : direntSize + d.nameLength offset ≤ d.recordLength offset
  used : d.inodeNumber offset ≠ 0 → d.Used offset

/-- From an offset on the directory is well-formed, with records at these offsets. -/
inductive Records : Nat → List Nat → Prop
  | nil : Records d.size []
  | cons {offset : Nat} {l : List Nat} : d.RecordOk offset →
    Records (offset + d.recordLength offset) l → Records offset (offset :: l)

/-- The record is the entry for the next component of the path. -/
def Is (offset : Nat) : Prop :=
  d.inodeNumber offset ≠ 0 ∧ d.name offset (d.nameLength offset) = component path

/-- The entry is found if there is one, and nothing else is found. -/
structure FindsRight (l : List Nat) (r : Parsed) : Prop where
  found : (∃ o ∈ l, d.Is path o) → ∃ i rest, r = .found i rest
  entry : ∀ i rest, r = .found i rest → rest = afterComponent path ∧
    ∃ o ∈ l, d.Is path o ∧ d.inodeNumber o = i

/-- The lookup ends, and in a well-formed directory it finds the entry. -/
structure Right : Prop where
  ends : ∃ fuel r, d.ext2ParseDir e path .directory fuel = some r
  finds : ∀ l, d.Records 0 l → ∀ fuel r, d.ext2ParseDir e path .directory fuel = some r →
    d.FindsRight path l r

/-! ## When it is -/

/-- Of this record's name `Ext2ReadDir` reads so much. -/
def readLength (offset : Nat) : Nat := min (d.nameLength offset) (ioMaxName - 1)

/-- The name that is compared. -/
def comparedName (offset : Nat) : Name :=
  (d.name offset (d.readLength offset)).takeWhile (· ≠ Char.ofNat 0)

/-- The record lies in the directory with its name, which is not empty, and both can be read. -/
structure Readable (offset : Nat) : Prop where
  size : offset + direntSize + d.readLength offset ≤ d.size
  nonempty : d.nameLength offset ≠ 0
  mdl : e.mdl offset = .success ∧ e.mdl (offset + direntSize) = .success
  views : e.views offset = .success ∧ e.views (offset + direntSize) = .success

/-- The lookup goes on to the next record. -/
def Passed (offset : Nat) : Prop := d.Readable e offset ∧ d.comparedName offset ≠ component path

/-- The lookup ends with this record's inode. -/
def Taken (offset : Nat) : Prop :=
  d.Readable e offset ∧ d.comparedName offset = component path ∧
    e.openInode (d.inodeNumber offset) = .success

/-- The way from a record that is passed. -/
def Leads (o o' : Nat) : Prop := d.Passed e path o ∧ o' = addW o (d.recordLength o)

instance (offset : Nat) : Decidable (d.Readable e offset) :=
  decidable_of_iff (offset + direntSize + d.readLength offset ≤ d.size ∧ d.nameLength offset ≠ 0 ∧
      (e.mdl offset = .success ∧ e.mdl (offset + direntSize) = .success) ∧
      e.views offset = .success ∧ e.views (offset + direntSize) = .success)
    ⟨fun ⟨h₁, h₂, h₃, h₄⟩ => ⟨h₁, h₂, h₃, h₄⟩, fun ⟨h₁, h₂, h₃, h₄⟩ => ⟨h₁, h₂, h₃, h₄⟩⟩

instance (offset : Nat) : Decidable (d.Passed e path offset) := inferInstanceAs (Decidable (_ ∧ _))

/-- Among these records, the first that the lookup does not pass. -/
def firstStop (l : List Nat) : Option Nat := l.find? fun o => !decide (d.Passed e path o)

/-- The records that are passed lead nowhere back; and in a well-formed directory the first one that is
not passed is only taken for an entry of the name with its inode, and is taken if there is such an
entry. -/
structure Fits : Prop where
  acyclic : ∀ o, Relation.ReflTransGen (d.Leads e path) 0 o →
    ¬ Relation.TransGen (d.Leads e path) o o
  entry : ∀ l, d.Records 0 l → ∀ o ∈ d.firstStop e path l, d.Taken e path o →
    ∃ o' ∈ l, d.Is path o' ∧ d.inodeNumber o' = d.inodeNumber o
  taken : ∀ l, d.Records 0 l → (∃ o ∈ l, d.Is path o) → ∃ o ∈ d.firstStop e path l, d.Taken e path o

variable {d e path} {offset size n : Nat}

/-! ## Reading a record -/

theorem ioReadFile_full : d.ioReadFile e size offset = .ok n ∧ ¬ n < size ↔
    n = size ∧ size ≠ 0 ∧ e.mdl offset = .success ∧ e.views offset = .success ∧
      offset + size ≤ d.size := by
  have hlt := d.size_lt
  unfold ioReadFile
  by_cases hz : size = 0
  · rw [if_pos hz]
    exact iff_of_false (fun h => nomatch h.1) fun h => h.2.1 hz
  · rw [if_neg hz]
    by_cases hmd : e.mdl offset = .success
    · rw [if_neg (not_not.2 hmd)]
      by_cases hov : wordSize ≤ size + offset
      · rw [if_pos hov]
        exact iff_of_false (fun h => nomatch h.1) fun h => by omega
      · rw [if_neg hov]
        by_cases he : d.size ≤ offset
        · rw [if_pos he]
          refine iff_of_false ?_ fun h => by omega
          rintro ⟨hok, hfl⟩
          cases hok
          omega
        · rw [if_neg he]
          by_cases hw : e.views offset = .success
          · rw [if_neg (not_not.2 hw)]
            constructor
            · rintro ⟨hok, hfl⟩
              cases hok
              exact ⟨by omega, hz, hmd, hw, by omega⟩
            · rintro ⟨rfl, -, -, -, hle⟩
              have hmn : min n (d.size - offset) = n := by omega
              exact ⟨by rw [hmn], Nat.lt_irrefl _⟩
          · rw [if_pos hw]
            exact iff_of_false (fun h => nomatch h.1) fun h => hw h.2.2.2.1
    · rw [if_pos hmd]
      exact iff_of_false (fun h => nomatch h.1) fun h => hmd h.2.2.1

theorem ext2ReadDir_ok_iff {entry : DirectoryEntry} : d.ext2ReadDir e offset = .ok entry ↔
    d.Readable e offset ∧
      entry = ⟨d.comparedName offset, d.inodeNumber offset, addW offset (d.recordLength offset)⟩ := by
  have hlt := d.size_lt
  unfold ext2ReadDir
  constructor
  · intro h
    split at h
    · cases h
    · split at h
      · cases h
      · next hread =>
          split at h
          · cases h
          · next hfl =>
              obtain ⟨-, -, hmd, hw, hle⟩ := ioReadFile_full.1 ⟨hread, hfl⟩
              rw [addW_of_lt (by omega)] at h
              dsimp only at h
              split at h
              · cases h
              · next hread' =>
                  split at h
                  · cases h
                  · next hfl' =>
                      obtain ⟨-, hne, hmd', hw', hle'⟩ := ioReadFile_full.1 ⟨hread', hfl'⟩
                      refine ⟨⟨hle', ?_, ⟨hmd, hmd'⟩, hw, hw'⟩, (Except.ok.inj h).symm⟩
                      omega
  · rintro ⟨hrd, rfl⟩
    have hsize := hrd.size
    have hpos : 0 < d.readLength offset := by
      have := hrd.nonempty
      unfold readLength ioMaxName
      omega
    have hnt : ¬ d.size ≤ offset := by omega
    obtain ⟨hread, hfl⟩ := ioReadFile_full.2 ⟨rfl, by decide, hrd.mdl.1, hrd.views.1,
      Nat.le_of_add_right_le hsize⟩
    obtain ⟨hread', hfl'⟩ := ioReadFile_full.2 ⟨rfl, hpos.ne', hrd.mdl.2, hrd.views.2, hsize⟩
    rw [if_neg hnt, hread]
    dsimp only
    rw [if_neg hfl, addW_of_lt (by omega)]
    unfold readLength at hread' hfl'
    rw [hread']
    dsimp only
    rw [if_neg hfl']
    rfl

/-! ## A turn of the loop -/

theorem path_ne_nil (hc : component path ≠ []) : path ≠ [] := by
  rintro rfl
  exact hc rfl

theorem parseBody_of_readable (hc : component path ≠ []) (h : d.Readable e offset) :
    d.parseBody e path offset =
      if d.comparedName offset = component path then
        .inr (match e.openInode (d.inodeNumber offset) with
          | .success => .found (d.inodeNumber offset) (afterComponent path)
          | status => .failed status)
      else .inl (addW offset (d.recordLength offset)) := by
  have hok := ext2ReadDir_ok_iff.2 ⟨h, rfl⟩
  have hmt := Ob.obMatchPathName_ne_zero_iff (path_ne_nil hc) (d.comparedName offset)
  unfold parseBody
  rw [hok]
  dsimp only
  by_cases hnm : d.comparedName offset = component path
  · rw [if_neg (hmt.2 hnm), if_pos hnm, hnm, Ob.drop_obMatchPathName]
    cases e.openInode (d.inodeNumber offset) <;> rfl
  · rw [if_pos (not_not.1 (mt hmt.1 hnm)), if_neg hnm]

/-- A record that cannot be read ends the loop. -/
theorem parseBody_of_not_readable (path : Name) (h : ¬ d.Readable e offset) :
    ∃ st, d.parseBody e path offset = .inr (.failed st) := by
  unfold parseBody
  cases hread : d.ext2ReadDir e offset with
  | error st => exact ⟨_, rfl⟩
  | ok entry => exact absurd (ext2ReadDir_ok_iff.1 hread).1 h

/-- The loop goes on as the records lead. -/
theorem parseBody_goesOn (hc : component path ≠ []) {o : Nat} :
    GoesOn (d.parseBody e path) offset o ↔ d.Leads e path offset o := by
  unfold GoesOn Leads Passed
  by_cases hrd : d.Readable e offset
  · rw [parseBody_of_readable hc hrd]
    by_cases hnm : d.comparedName offset = component path
    · rw [if_pos hnm]
      exact iff_of_false nofun fun h => h.1.2 hnm
    · rw [if_neg hnm]
      constructor
      · intro h
        exact ⟨⟨hrd, hnm⟩, (Sum.inl.inj h).symm⟩
      · rintro ⟨-, rfl⟩
        rfl
  · obtain ⟨st, hst⟩ := parseBody_of_not_readable path hrd
    rw [hst]
    exact iff_of_false nofun fun h => hrd h.1.1

/-! ## The loop -/

/-- It ends just if the records do not lead back. -/
theorem lookup_ends_iff (hc : component path ≠ []) : (∃ r, LoopEnds (d.parseBody e path) 0 r) ↔
      ∀ o, Relation.ReflTransGen (d.Leads e path) 0 o → ¬ Relation.TransGen (d.Leads e path) o o := by
  have hgs : GoesOn (d.parseBody e path) = d.Leads e path := by
    funext o o'
    exact propext (parseBody_goesOn hc)
  have hfn : {o | ∃ o', GoesOn (d.parseBody e path) o o'}.Finite := by
    refine (Finset.range d.size).finite_toSet.subset ?_
    rintro o ⟨o', hgo⟩
    rw [hgs] at hgo
    have hsize := hgo.1.1.size
    rw [Finset.mem_coe, Finset.mem_range]
    unfold direntSize at hsize
    omega
  rw [loop_ends_iff hfn, hgs]

variable {l : List Nat}

theorem Records.le (h : d.Records offset l) : offset ≤ d.size := by
  induction h with
  | nil => exact le_rfl
  | cons _ _ ih => omega

variable {r : Parsed}

section

variable (hc : component path ≠ [])
include hc

/-- A well-formed directory is left at the first record that is not passed, or at its end. -/
theorem Records.result (h : d.Records offset l) (he : LoopEnds (d.parseBody e path) offset r) :
    match d.firstStop e path l with
    | none => r = .failed .nameNotFound
    | some o => d.parseBody e path o = .inr r := by
  induction h with
  | nil =>
    have hb : d.parseBody e path d.size = .inr (.failed .nameNotFound) := by
      unfold parseBody ext2ReadDir
      rw [if_pos le_rfl]
      rfl
    exact (LoopEnds.inr_iff hb).1 he
  | @cons o l hok hrs ih =>
    by_cases hp : d.Passed e path o
    · have hgo : GoesOn (d.parseBody e path) o (o + d.recordLength o) := by
        have hle := hrs.le
        have hlt := d.size_lt
        rw [parseBody_goesOn hc]
        exact ⟨hp, (addW_of_lt (by omega)).symm⟩
      have hst : d.firstStop e path (o :: l) = d.firstStop e path l := by
        unfold firstStop
        rw [List.find?_cons_of_neg (by simpa using hp)]
      rw [hst]
      exact ih ((LoopEnds.inl_iff hgo).1 he)
    · have hst : d.firstStop e path (o :: l) = some o := by
        unfold firstStop
        rw [List.find?_cons_of_pos (by simpa using hp)]
      rw [hst]
      cases hb : d.parseBody e path o with
      | inl o' => exact absurd ((parseBody_goesOn hc).1 hb).1 hp
      | inr r' =>
        rw [(LoopEnds.inr_iff hb).1 he]
        exact hb

/-- In a well-formed directory the lookup always ends. -/
theorem Records.ends (h : d.Records offset l) :
    ∃ r, LoopEnds (d.parseBody e path) offset r := by
  induction h with
  | nil =>
    have hb : d.parseBody e path d.size = .inr (.failed .nameNotFound) := by
      unfold parseBody ext2ReadDir
      rw [if_pos le_rfl]
      rfl
    exact ⟨_, .of_inr hb⟩
  | @cons o l hok hrs ih =>
    cases hb : d.parseBody e path o with
    | inl o' =>
      have hle := hrs.le
      have hlt := d.size_lt
      obtain ⟨-, ho'⟩ := (parseBody_goesOn hc).1 hb
      rw [addW_of_lt (by omega)] at ho'
      simp only [LoopEnds.inl_iff hb, ho']
      exact ih
    | inr r => exact ⟨r, .of_inr hb⟩

/-- What comes of a record that is not passed. -/
theorem parseBody_stops (h : d.parseBody e path offset = .inr r) :
    (d.Taken e path offset ∧ r = .found (d.inodeNumber offset) (afterComponent path)) ∨
      (¬ d.Taken e path offset ∧ ∃ st, r = .failed st) := by
  by_cases hrd : d.Readable e offset
  · rw [parseBody_of_readable hc hrd] at h
    by_cases hnm : d.comparedName offset = component path
    · rw [if_pos hnm] at h
      by_cases hon : e.openInode (d.inodeNumber offset) = .success
      · rw [hon] at h
        exact .inl ⟨⟨hrd, hnm, hon⟩, (Sum.inr.inj h).symm⟩
      · refine .inr ⟨fun ht => hon ht.2.2, ?_⟩
        rw [← Sum.inr.inj h]
        split
        · next hsc => exact absurd hsc hon
        · exact ⟨_, rfl⟩
    · rw [if_neg hnm] at h
      cases h
  · obtain ⟨st, hst⟩ := parseBody_of_not_readable path hrd
    rw [hst] at h
    exact .inr ⟨fun ht => hrd ht.1, st, (Sum.inr.inj h).symm⟩

/-- A lookup in a well-formed directory. -/
theorem Records.findsRight_iff (h : d.Records 0 l) (hen : LoopEnds (d.parseBody e path) 0 r) :
    d.FindsRight path l r ↔ (∀ o ∈ d.firstStop e path l, d.Taken e path o →
        ∃ o' ∈ l, d.Is path o' ∧ d.inodeNumber o' = d.inodeNumber o) ∧
      ((∃ o ∈ l, d.Is path o) → ∃ o ∈ d.firstStop e path l, d.Taken e path o) := by
  have hrs := h.result hc hen
  cases hst : d.firstStop e path l with
  | none =>
    rw [hst] at hrs
    subst hrs
    constructor
    · intro hrg
      refine ⟨nofun, fun he => ?_⟩
      obtain ⟨i, rest, hfn⟩ := hrg.found he
      cases hfn
    · rintro ⟨-, htk⟩
      refine ⟨fun he => ?_, nofun⟩
      obtain ⟨o, ho, -⟩ := htk he
      cases ho
  | some o =>
    rw [hst] at hrs
    simp only [mem_some_iff, forall_eq', exists_eq_left']
    rcases parseBody_stops hc hrs with ⟨htk, rfl⟩ | ⟨hnt, status, rfl⟩
    · constructor
      · exact fun hrg => ⟨fun _ => (hrg.entry _ _ rfl).2, fun _ => htk⟩
      · rintro ⟨he, -⟩
        refine ⟨fun _ => ⟨_, _, rfl⟩, fun i rest heq => ?_⟩
        cases heq
        exact ⟨rfl, he htk⟩
    · constructor
      · intro hrg
        refine ⟨fun ht => absurd ht hnt, fun he => ?_⟩
        obtain ⟨i, rest, hfn⟩ := hrg.found he
        cases hfn
      · rintro ⟨-, htk⟩
        exact ⟨fun he => absurd (htk he) hnt, nofun⟩

theorem ext2ParseDir_eq (fuel : Nat) :
    d.ext2ParseDir e path .directory fuel = loop (d.parseBody e path) fuel 0 := by
  have hnt : ¬ (path = [] ∨ path.head? = some pathSeparator) := by
    rintro (h | h)
    · exact path_ne_nil hc h
    · cases path with
      | nil => cases h
      | cons c path =>
        cases h
        exact hc (Ob.component_separator path)
  unfold ext2ParseDir
  exact if_neg hnt

end

/-- **A lookup is right just if no record leads back and the first record that is not passed is the
entry.** -/
theorem parseDir_right_iff (hcomponent : component path ≠ []) : d.Right e path ↔ d.Fits e path := by
  constructor
  · intro hrg
    have he : ∃ r, LoopEnds (d.parseBody e path) 0 r := by
      obtain ⟨fuel, r, hr⟩ := hrg.ends
      rw [ext2ParseDir_eq hcomponent] at hr
      exact ⟨r, fuel, hr⟩
    have hfs : ∀ l, d.Records 0 l → ∃ r, LoopEnds (d.parseBody e path) 0 r ∧ d.FindsRight path l r := by
      intro l hc
      obtain ⟨r, fuel, hr⟩ := he
      rw [← ext2ParseDir_eq hcomponent] at hr
      refine ⟨r, ⟨fuel, ?_⟩, hrg.finds l hc fuel r hr⟩
      rw [← ext2ParseDir_eq hcomponent, hr]
    refine ⟨(lookup_ends_iff hcomponent).1 he, fun l hc => ?_, fun l hc => ?_⟩
    · obtain ⟨r, hr, hfn⟩ := hfs l hc
      exact ((hc.findsRight_iff hcomponent hr).1 hfn).1
    · obtain ⟨r, hr, hfn⟩ := hfs l hc
      exact ((hc.findsRight_iff hcomponent hr).1 hfn).2
  · intro hft
    refine ⟨?_, fun l hc fuel r hr => ?_⟩
    · obtain ⟨r, fuel, hr⟩ := (lookup_ends_iff hcomponent).2 hft.acyclic
      exact ⟨fuel, r, by rw [ext2ParseDir_eq hcomponent, hr]⟩
    · rw [ext2ParseDir_eq hcomponent] at hr
      exact (hc.findsRight_iff hcomponent ⟨fuel, hr⟩).2 ⟨hft.entry l hc, hft.taken l hc⟩

/-! ## Directories whose records are all in use -/

theorem Records.unique {l' : List Nat} (h : d.Records offset l) (h' : d.Records offset l') : l = l' := by
  have hpos : ∀ o, d.RecordOk o → 0 < d.recordLength o := by
    intro o hok
    have hrm := hok.room
    unfold direntSize at hrm
    omega
  induction h generalizing l' with
  | nil =>
    cases h' with
    | nil => rfl
    | cons hok hrs =>
      have hle := hrs.le
      have := hpos _ hok
      omega
  | @cons o l hok hrs ih =>
    generalize hof : o = o' at h'
    cases h' with
    | nil =>
      have hle := hrs.le
      have := hpos _ hok
      omega
    | cons hok' hrs' =>
      subst hof
      rw [ih hrs']

theorem comparedName_eq (hu : d.Used offset) (hlength : d.nameLength offset < ioMaxName) :
    d.comparedName offset = d.name offset (d.nameLength offset) := by
  have hread : d.readLength offset = d.nameLength offset := by
    unfold readLength
    omega
  unfold comparedName
  rw [hread, takeWhile_eq_self_iff]
  intro c hc
  exact decide_eq_true (hu.chars c hc).1

theorem Records.ok (h : d.Records offset l) : ∀ o ∈ l, d.RecordOk o ∧ o + d.recordLength o ≤ d.size := by
  induction h with
  | nil => exact nofun
  | cons hok hrs ih =>
    intro o ho
    rcases mem_cons.1 ho with rfl | ho
    · exact ⟨hok, hrs.le⟩
    · exact ih o ho

/-- In a well-formed directory with no unused records and no overlong names every lookup is right, if
nothing it asks for fails. -/
theorem fits_of_inUse (hc : component path ≠ []) (h : d.Records 0 l)
    (hin : ∀ o ∈ l, d.inodeNumber o ≠ 0) (hlength : ∀ o ∈ l, d.nameLength o < ioMaxName)
    (hmd : ∀ o, e.mdl o = .success) (hw : ∀ o, e.views o = .success)
    (hon : ∀ i, e.openInode i = .success) : d.Fits e path := by
  have hu : ∀ o ∈ l, d.Used o := fun o ho => (h.ok o ho).1.used (hin o ho)
  have hrd : ∀ o ∈ l, d.Readable e o := by
    intro o ho
    obtain ⟨hok, hle⟩ := h.ok o ho
    have hrm := hok.room
    refine ⟨?_, (hu o ho).nonempty, ⟨hmd _, hmd _⟩, hw _, hw _⟩
    unfold readLength
    omega
  have hnm : ∀ o ∈ l, d.comparedName o = d.name o (d.nameLength o) :=
    fun o ho => comparedName_eq (hu o ho) (hlength o ho)
  refine ⟨(lookup_ends_iff hc).1 (h.ends hc), fun l' h' => ?_, fun l' h' => ?_⟩
  · obtain rfl := h.unique h'
    intro o ho htk
    have hme : o ∈ l := mem_of_find?_eq_some ho
    exact ⟨o, hme, ⟨hin o hme, (hnm o hme).symm.trans htk.2.1⟩, rfl⟩
  · obtain rfl := h.unique h'
    rintro ⟨o, ho, his⟩
    have hst : ¬ d.Passed e path o := fun hp => hp.2 ((hnm o ho).trans his.2)
    obtain ⟨x, hx⟩ : ∃ x, d.firstStop e path l = some x :=
      isSome_iff_exists.1 (List.find?_isSome.2 ⟨o, ho, by simpa using hst⟩)
    have hme : x ∈ l := mem_of_find?_eq_some hx
    have hnt : ¬ d.Passed e path x := by simpa using List.find?_some hx
    refine ⟨x, hx, hrd x hme, ?_, hon _⟩
    by_contra hne
    exact hnt ⟨hrd x hme, hne⟩

/-- A directory with one record, for inode 2 under the name `a`. -/
def oneEntry : Directory where
  version := 1
  size := 12
  byte o := [2, 0, 0, 0, 12, 0, 1, 2, 97].getD o 0
  size_lt := by decide

/-- Everything can be had. -/
def nothingFails : LookupOutcomes := ⟨fun _ => .success, fun _ => .success, fun _ => .success⟩

theorem parseDir_right_one : oneEntry.Right nothingFails ['a', '/', 'b'] := by
  have hcm : component ['a', '/', 'b'] ≠ [] := by decide
  have hh : ∀ c ∈ oneEntry.name 0 (oneEntry.nameLength 0), c ≠ Char.ofNat 0 ∧ c ≠ pathSeparator := by
    have hnm : oneEntry.name 0 (oneEntry.nameLength 0) = ['a'] := rfl
    rw [hnm]
    intro c hc
    obtain rfl := mem_singleton.1 hc
    exact ⟨by decide, by decide⟩
  have hu : oneEntry.Used 0 := ⟨by decide, by decide, hh⟩
  have hrc : oneEntry.Records 0 [0] := .cons ⟨by decide, fun _ => hu⟩ .nil
  refine (parseDir_right_iff hcm).2 (fits_of_inUse hcm hrc ?_ ?_ (fun _ => rfl)
    (fun _ => rfl) fun _ => rfl)
  · intro o ho
    obtain rfl := mem_singleton.1 ho
    decide
  · intro o ho
    obtain rfl := mem_singleton.1 ho
    decide

/-- The same with a record length of zero. -/
def endless : Directory := { oneEntry with byte := fun o => [2, 0, 0, 0, 0, 0, 1, 2, 97].getD o 0 }

/-- Looking for another name there does not end. -/
theorem parseDir_endless :
    ¬ ∀ (d : Directory) (e : LookupOutcomes) (path : Name), component path ≠ [] → d.Right e path := by
  intro h
  obtain ⟨fuel, r, hr⟩ := (h endless nothingFails ['b'] (by decide)).ends
  have hc : component ['b'] ≠ [] := by decide
  have hlength : endless.recordLength 0 = 0 := by decide
  have hy : GoesOn (endless.parseBody nothingFails ['b']) 0 0 := by
    refine (parseBody_goesOn hc).2 ⟨⟨by decide, by decide⟩, ?_⟩
    rw [hlength, addW_of_lt (by decide)]
  have hnn := loop_eq_none_of_cycle (.single hy) .refl fuel
  rw [ext2ParseDir_eq hc, hnn] at hr
  cases hr

end Directory

end Boron.Ext2
