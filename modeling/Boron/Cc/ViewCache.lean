import Boron.Io.Mdl

/-! # The view cache (`cc/vcache.c`, `cc/vclru.c`, `mm/sview.c`)

Cached file I/O goes through views: windows of `VIEW_CACHE_SIZE` bytes of a file mapped in system
space. Each file keeps its views in a tree keyed by the window's number, and all views of all files
are on one list, from which the oldest are unmapped when there are too many. `CcWriteFileMdl` walks
over the windows of its range and copies one piece of the caller's buffer through each of them;
`ccWriteFileMdl_spec` says that the pieces make up one contiguous write.

The calls here run alone; sizes are those of the 64-bit build. -/

namespace Boron.Cc

open Function Option

open Boron.Io (Byte Mdl)

def viewCacheSize : Nat := 16777216

def viewCacheMaxCount : Nat := 8192

inductive BStatus
  | success
  | invalidParameter
  | insufficientMemory
  | unsupportedFunction
  | other (code : Nat)
  deriving DecidableEq

/-! ## Views -/

/-- The `MMVAD` of a view of the file `f`. -/
structure View {F : Type} (f : F) where
  startVa : Nat
  sectionOffset : Nat
  aligned : sectionOffset % viewCacheSize = 0

/-- `ViewCacheEntry.Key`. -/
def View.key {F : Type} {f : F} (v : View f) : Nat := v.sectionOffset / viewCacheSize

/-- The window that a file offset is in: `FileOffset & ~(VIEW_CACHE_SIZE - 1)`. -/
def windowOf (fileOffset : Nat) : Nat := fileOffset / viewCacheSize * viewCacheSize

theorem windowOf_mod (fo : Nat) : windowOf fo % viewCacheSize = 0 :=
  Nat.mul_mod_left ..

/-- The view that holds a file offset maps it at the offset's place in its window. -/
theorem View.sectionOffset_add {F : Type} {f : F} {v : View f} {fileOffset : Nat}
    (h : v.key = fileOffset / viewCacheSize) :
    v.sectionOffset + fileOffset % viewCacheSize = fileOffset := by
  have hst := Nat.div_add_mod v.sectionOffset viewCacheSize
  have hof := Nat.div_add_mod fileOffset viewCacheSize
  rw [v.aligned, ← View.key, h] at hst
  omega

/-- What the I/O manager and the cache keep for a file: its length, the bytes its driver holds, and
the bytes that are seen through its views. -/
structure Fcb where
  fileLength : Nat
  stored : Nat → Byte
  mapped : Nat → Byte

/-- The files, their `ViewCache` trees and the list of all views, oldest first. -/
structure Files (F : Type) where
  fcb : F → Fcb
  viewCache : (f : F) → List (View f)
  viewCacheLru : List ((f : F) × View f)

namespace Files

variable {F : Type} [DecidableEq F]

/-- `MmUnmapViewOfFileInSystemSpace` with `RemoveFromFcbViewCache`. -/
def mmUnmapViewOfFileInSystemSpace (s : Files F) (v : (f : F) × View f) : Files F :=
  { s with
    viewCache := update s.viewCache v.1
      ((s.viewCache v.1).filter fun w => w.startVa ≠ v.2.startVa)
    viewCacheLru := s.viewCacheLru.filter fun w => w.2.startVa ≠ v.2.startVa }

/-- The loop of `CcPurgeViewsOverLimit`. -/
def purgeViews (limit : Nat) : (fuel : Nat) → Files F → Files F
  | 0, s => s
  | fuel + 1, s =>
    if limit < s.viewCacheLru.length then
      match s.viewCacheLru with
      | [] => s
      | v :: _ => purgeViews limit fuel (s.mmUnmapViewOfFileInSystemSpace v)
    else s

def ccPurgeViewsOverLimit (s : Files F) (leaveSpaceFor : Nat) : Files F :=
  purgeViews (viewCacheMaxCount - leaveSpaceFor) s.viewCacheLru.length s

/-- `MmMapViewOfFileInSystemSpace`, for a seekable file. `space` is the address that the pool and
the VAD list come up with, if they do. -/
def mmMapViewOfFileInSystemSpace (s : Files F) (space : Option Nat) (f : F) (fileOffset : Nat) :
    Files F × Option (View f) :=
  let s := s.ccPurgeViewsOverLimit 1
  match space with
  | none => (s, none)
  | some startVa =>
    let v : View f := ⟨startVa, windowOf fileOffset, windowOf_mod fileOffset⟩
    ({ s with
      viewCache := update s.viewCache f (v :: s.viewCache f)
      viewCacheLru := s.viewCacheLru ++ [⟨f, v⟩] }, some v)

def cciGetViewOfFile (s : Files F) (space : Option Nat) (f : F) (fileOffset : Nat) :
    Files F × Option (View f) :=
  match (s.viewCache f).find? fun v => v.key = fileOffset / viewCacheSize with
  | some v => (s, some v)
  | none => s.mmMapViewOfFileInSystemSpace space f fileOffset

/-- What is copied through one view is a part of the whole, and not empty. -/
theorem chunk_bounds {fo size n : Nat} (hz : size ≠ 0) (hn : (if size < viewCacheSize - fo % viewCacheSize
      then size else viewCacheSize - fo % viewCacheSize) = n) : 0 < n ∧ n ≤ size := by
  have hmd : fo % viewCacheSize < viewCacheSize := Nat.mod_lt _ (by decide)
  split at hn <;> omega

/-- A copy of `source` to `offset` within a view. -/
def storeInView (s : Files F) {f : F} (v : View f) (offset : Nat) (source : List Byte) : Files F :=
  { s with
    fcb := update s.fcb f
      { s.fcb f with mapped := writeAt (s.fcb f).mapped (v.sectionOffset + offset) source } }

/-- The loop of `CcWriteFileMdl`. `space` says for each window how mapping it would end. -/
def writeViews (space : Nat → Option Nat) (f : F) (mdl : Mdl) :
    (fuel : Nat) → Files F → (fileOffset mdlOffset size : Nat) → Files F × BStatus
  | 0, s, _, _, _ => (s, .success)
  | fuel + 1, s, fileOffset, mdlOffset, size =>
    if size = 0 then (s, .success)
    else
      let viewOffset := fileOffset % viewCacheSize
      let bytesTillNext := viewCacheSize - viewOffset
      let copyAmount := if size < bytesTillNext then size else bytesTillNext
      match s.cciGetViewOfFile (space (fileOffset / viewCacheSize)) f fileOffset with
      | (s, none) => (s, .insufficientMemory)
      | (s, some view) =>
        writeViews space f mdl fuel
          (s.storeInView view viewOffset (mdl.mmCopyFromMdl mdlOffset copyAmount))
          (fileOffset + copyAmount) (mdlOffset + copyAmount) (size - copyAmount)

def ccWriteFileMdl (s : Files F) (space : Nat → Option Nat) (f : F) (fileOffset : Nat) (mdl : Mdl)
    (mdlOffset byteCount : Nat) : Files F × BStatus :=
  writeViews space f mdl byteCount s fileOffset mdlOffset byteCount

/-! ## What the views do to the files -/

theorem fcb_purgeViews (limit fuel : Nat) (s : Files F) : (purgeViews limit fuel s).fcb = s.fcb := by
  induction fuel generalizing s with
  | zero => rfl
  | succ fuel ih =>
    unfold purgeViews
    split
    · split
      · rfl
      · rw [ih]
        rfl
    · rfl

/-- Getting a view changes no file, and the view is of the window asked for. -/
theorem cciGetViewOfFile_spec (s : Files F) (space : Option Nat) (f : F) (fo : Nat) :
    (s.cciGetViewOfFile space f fo).1.fcb = s.fcb ∧ ∀ v, (s.cciGetViewOfFile space f fo).2 = some v →
        v.key = fo / viewCacheSize := by
  unfold cciGetViewOfFile
  split
  · next v hv =>
      refine ⟨rfl, fun w hw => ?_⟩
      cases hw
      simpa using List.find?_some hv
  · unfold mmMapViewOfFileInSystemSpace
    cases space with
    | none => exact ⟨fcb_purgeViews .., nofun⟩
    | some sv =>
      refine ⟨fcb_purgeViews .., fun w hw => ?_⟩
      cases hw
      exact Nat.mul_div_cancel _ (by decide)

theorem cciGetViewOfFile_isSome (s : Files F) {space : Option Nat} (h : space.isSome) (f : F)
    (fo : Nat) : (s.cciGetViewOfFile space f fo).2.isSome := by
  obtain ⟨sv, rfl⟩ := isSome_iff_exists.1 h
  unfold cciGetViewOfFile
  split <;> rfl

/-- The files with `source` written to the bytes of `f` that its views show. -/
def writeMapped (fcb : F → Fcb) (f : F) (offset : Nat) (source : List Byte) : F → Fcb :=
  update fcb f { fcb f with mapped := writeAt (fcb f).mapped offset source }

theorem writeMapped_nil (fcb : F → Fcb) (f : F) (off : Nat) : writeMapped fcb f off [] = fcb := by
  rw [writeMapped, writeAt_nil, update_eq_self]

theorem writeMapped_append (fcb : F → Fcb) (f : F) (off : Nat) (xs ys : List Byte) :
    writeMapped (writeMapped fcb f off xs) f (off + xs.length) ys
      = writeMapped fcb f off (xs ++ ys) := by
  unfold writeMapped
  simp only [update_self, update_idem, writeAt_append]

variable {space : Nat → Option Nat}

theorem writeViews_spec {f : F} {mdl : Mdl} {fuel size : Nat}
    (hfl : size ≤ fuel) (s : Files F) (fileOffset mdlOffset : Nat)
    (hok : (writeViews space f mdl fuel s fileOffset mdlOffset size).2 = .success) :
    (writeViews space f mdl fuel s fileOffset mdlOffset size).1.fcb
      = writeMapped s.fcb f fileOffset (mdl.mmCopyFromMdl mdlOffset size) := by
  induction fuel generalizing s fileOffset mdlOffset size with
  | zero =>
    obtain rfl := Nat.le_zero.1 hfl
    exact (writeMapped_nil ..).symm
  | succ fuel ih =>
    simp only [writeViews] at hok ⊢
    split at hok
    · next hz =>
        rw [if_pos hz, hz]
        exact (writeMapped_nil ..).symm
    · next hsm =>
        rw [if_neg hsm]
        generalize hn : (if size < viewCacheSize - fileOffset % viewCacheSize then size
          else viewCacheSize - fileOffset % viewCacheSize) = n at hok ⊢
        have hb := chunk_bounds (by omega) hn
        obtain ⟨hfcb, hy⟩ :=
          s.cciGetViewOfFile_spec (space (fileOffset / viewCacheSize)) f fileOffset
        match hgt : s.cciGetViewOfFile (space (fileOffset / viewCacheSize)) f fileOffset with
        | (s', none) =>
          rw [hgt] at hok
          cases hok
        | (s', some view) =>
          rw [hgt] at hok hfcb hy
          -- The piece goes to its own place in the file, and the rest right behind it.
          have hp : (s'.storeInView view (fileOffset % viewCacheSize)
              (mdl.mmCopyFromMdl mdlOffset n)).fcb
              = writeMapped s.fcb f fileOffset (mdl.mmCopyFromMdl mdlOffset n) := by
            simp only [storeInView, writeMapped, View.sectionOffset_add (hy view rfl)]
            rw [show s'.fcb = s.fcb from hfcb]
          obtain ⟨m, rfl⟩ := Nat.exists_eq_add_of_le hb.2
          simp only [Nat.add_sub_cancel_left] at hok ⊢
          rw [ih (by omega) _ _ _ hok, hp]
          simp only [Mdl.mmCopyFromMdl_eq, readAt_add, ← Nat.add_assoc]
          have := writeMapped_append s.fcb f fileOffset
            (readAt mdl.byteAt (mdl.byteOffset + mdlOffset) n)
            (readAt mdl.byteAt (mdl.byteOffset + mdlOffset + n) m)
          rwa [length_readAt] at this

/-- A successful `CcWriteFileMdl` has written its part of the buffer to the file. -/
theorem ccWriteFileMdl_spec (s : Files F) (space : Nat → Option Nat) (f : F) (fo : Nat)
    (mdl : Mdl) (mo bc : Nat)
    (hok : (s.ccWriteFileMdl space f fo mdl mo bc).2 = .success) :
    (s.ccWriteFileMdl space f fo mdl mo bc).1.fcb = writeMapped s.fcb f fo (mdl.mmCopyFromMdl mo bc) :=
  writeViews_spec (Nat.le_refl _) s fo mo hok

/-- With room for its views the loop succeeds. -/
theorem writeViews_success (h : ∀ k, (space k).isSome) (f : F)
    (mdl : Mdl) (fuel : Nat) (s : Files F) (fo mo size : Nat) :
    (writeViews space f mdl fuel s fo mo size).2 = .success := by
  induction fuel generalizing s fo mo size with
  | zero => rfl
  | succ fuel ih =>
    simp only [writeViews]
    split
    · rfl
    · have hw := s.cciGetViewOfFile_isSome (h (fo / viewCacheSize)) f fo
      match hgt : s.cciGetViewOfFile (space (fo / viewCacheSize)) f fo with
      | (s', none) =>
        rw [hgt] at hw
        cases hw
      | (s', some view) => exact ih ..

end Files

end Boron.Cc
