import Boron.Lib.Ring

/-! # Buffers of the callers (`mm/mdl.c`)

An MDL describes a buffer by the pages that hold it. The copies between an MDL and a contiguous
buffer go from page to page; `byteAt_mmCopyIntoMdl` and `mmCopyFromMdl_eq` say that each is one
contiguous copy. -/

namespace Boron.Io

open Function List

abbrev Byte := UInt8

/-- An `MDL`: pinned pages, with the offset of the buffer within the first one. -/
structure Mdl where
  byteOffset : Nat
  byteCount : Nat
  page : Nat → Nat → Byte

namespace Mdl

def pageSize : Nat := 4096

/-- The loop of `MmCopyIntoMdl`, which goes from page to page. -/
def copyInto : (fuel : Nat) → Mdl → (offset : Nat) → List Byte → Mdl
  | 0, mdl, _, _ => mdl
  | fuel + 1, mdl, offset, source =>
    if source.length = 0 then mdl
    else
      let pageIndex := offset / pageSize
      let pageOffs := offset % pageSize
      let bytesTillNext := pageSize - pageOffs
      let copyAmount := if source.length < bytesTillNext then source.length else bytesTillNext
      let page := writeAt (mdl.page pageIndex) pageOffs (source.take copyAmount)
      copyInto fuel { mdl with page := update mdl.page pageIndex page }
        (offset + copyAmount) (source.drop copyAmount)

def mmCopyIntoMdl (mdl : Mdl) (offset : Nat) (source : List Byte) : Mdl :=
  copyInto source.length mdl (offset + mdl.byteOffset) source

/-- The loop of `MmCopyFromMdl`. -/
def copyFrom : (fuel : Nat) → Mdl → (offset size : Nat) → List Byte
  | 0, _, _, _ => []
  | fuel + 1, mdl, offset, size =>
    if size = 0 then []
    else
      let pageIndex := offset / pageSize
      let pageOffs := offset % pageSize
      let bytesTillNext := pageSize - pageOffs
      let copyAmount := if size < bytesTillNext then size else bytesTillNext
      readAt (mdl.page pageIndex) pageOffs copyAmount
        ++ copyFrom fuel mdl (offset + copyAmount) (size - copyAmount)

def mmCopyFromMdl (mdl : Mdl) (offset size : Nat) : List Byte :=
  copyFrom size mdl (offset + mdl.byteOffset) size

/-- The loop of `MmSetIntoMdl`. -/
def setInto (toSet : Byte) : (fuel : Nat) → Mdl → (offset size : Nat) → Mdl
  | 0, mdl, _, _ => mdl
  | fuel + 1, mdl, offset, size =>
    if size = 0 then mdl
    else
      let pageIndex := offset / pageSize
      let pageOffs := offset % pageSize
      let bytesTillNext := pageSize - pageOffs
      let copyAmount := if size < bytesTillNext then size else bytesTillNext
      let page := writeAt (mdl.page pageIndex) pageOffs (List.replicate copyAmount toSet)
      setInto toSet fuel { mdl with page := update mdl.page pageIndex page }
        (offset + copyAmount) (size - copyAmount)

def mmSetIntoMdl (mdl : Mdl) (offset : Nat) (toSet : Byte) (size : Nat) : Mdl :=
  setInto toSet size mdl (offset + mdl.byteOffset) size

/-! ## The copies are contiguous -/

/-- The byte at a position counted from the start of the first page. -/
def byteAt (mdl : Mdl) (i : Nat) : Byte := mdl.page (i / pageSize) (i % pageSize)

/-- The first `n` bytes of the buffer. -/
def data (mdl : Mdl) (n : Nat) : List Byte := readAt mdl.byteAt mdl.byteOffset n

@[simp] theorem length_data (mdl : Mdl) (n : Nat) : (mdl.data n).length = n := length_readAt ..

theorem byteAt_copyPage (mdl : Mdl) (off : Nat) {chunk : List Byte}
    (h : off % pageSize + chunk.length ≤ pageSize) :
    byteAt { mdl with
      page := update mdl.page (off / pageSize)
        (writeAt (mdl.page (off / pageSize)) (off % pageSize) chunk) }
      = writeAt mdl.byteAt off chunk := by
  funext j
  simp only [byteAt]
  have hof := Nat.div_add_mod off pageSize
  have hj := Nat.div_add_mod j pageSize
  by_cases hp : j / pageSize = off / pageSize
  · rw [hp, update_self]
    rw [hp] at hj
    by_cases hin : off ≤ j ∧ j < off + chunk.length
    · have hk : j - off < chunk.length := by omega
      have hlf : j % pageSize = off % pageSize + (j - off) := by omega
      have hrg : j = off + (j - off) := by omega
      rw [hlf, writeAt_apply_of_lt hk]
      conv_rhs => rw [hrg]
      rw [writeAt_apply_of_lt hk]
    · rw [writeAt_apply_of_outside (by omega), writeAt_apply_of_outside (by omega), byteAt, hp]
  · rw [update_of_ne hp, writeAt_apply_of_outside, byteAt]
    by_contra hin
    refine hp ?_
    -- A position within the chunk lies on the chunk's page.
    have hw : pageSize * (off / pageSize) ≤ j := by omega
    have hh : j < pageSize * (off / pageSize + 1) := by
      rw [Nat.mul_add, Nat.mul_one]
      omega
    exact Nat.div_eq_of_lt_le (by rw [Nat.mul_comm]; exact hw) (by rw [Nat.mul_comm]; exact hh)

variable {fuel : Nat} {mdl : Mdl}

theorem byteAt_copyInto {offset : Nat} {source : List Byte} (h : source.length ≤ fuel) :
    (copyInto fuel mdl offset source).byteAt = writeAt mdl.byteAt offset source := by
  induction fuel generalizing mdl offset source with
  | zero =>
    obtain rfl := eq_nil_of_length_eq_zero (Nat.le_zero.1 h)
    rw [copyInto, writeAt_nil]
  | succ fuel ih =>
    simp only [copyInto]
    split
    · next hnil => rw [eq_nil_of_length_eq_zero hnil, writeAt_nil]
    · next hsm =>
        have hmd : offset % pageSize < pageSize := Nat.mod_lt _ (by decide)
        generalize hn : (if source.length < pageSize - offset % pageSize then source.length
          else pageSize - offset % pageSize) = n
        have hb : 0 < n ∧ n ≤ source.length ∧ offset % pageSize + n ≤ pageSize := by
          split at hn <;> omega
        have htk : (source.take n).length = n := by
          rw [length_take]
          omega
        rw [ih (by rw [length_drop]; omega), byteAt_copyPage mdl offset (by omega)]
        have := writeAt_append mdl.byteAt offset (source.take n) (source.drop n)
        rwa [htk, take_append_drop] at this

theorem byteOffset_copyInto (fuel : Nat) (mdl : Mdl) (off : Nat) (src : List Byte) :
    (copyInto fuel mdl off src).byteOffset = mdl.byteOffset := by
  induction fuel generalizing mdl off src with
  | zero => rfl
  | succ fuel ih =>
    rw [copyInto]
    split
    · rfl
    · rw [ih]

theorem byteAt_mmCopyIntoMdl (mdl : Mdl) (offset : Nat) (source : List Byte) :
    (mdl.mmCopyIntoMdl offset source).byteAt = writeAt mdl.byteAt (mdl.byteOffset + offset) source := by
  rw [mmCopyIntoMdl, byteAt_copyInto (Nat.le_refl _), Nat.add_comm]

@[simp] theorem byteOffset_mmCopyIntoMdl (mdl : Mdl) (off : Nat) (src : List Byte) :
    (mdl.mmCopyIntoMdl off src).byteOffset = mdl.byteOffset := byteOffset_copyInto ..

@[simp] theorem byteCount_mmCopyIntoMdl (mdl : Mdl) (off : Nat) (src : List Byte) :
    (mdl.mmCopyIntoMdl off src).byteCount = mdl.byteCount := by
  suffices h : ∀ fuel mdl off src, (copyInto fuel mdl off src).byteCount = mdl.byteCount from h ..
  intro fuel
  induction fuel with
  | zero => intros; rfl
  | succ fuel ih =>
    intro mdl off src
    rw [copyInto]
    split
    · rfl
    · rw [ih]

theorem setInto_eq (toSet : Byte) (fuel : Nat) (mdl : Mdl) (off size : Nat) :
    setInto toSet fuel mdl off size = copyInto fuel mdl off (List.replicate size toSet) := by
  induction fuel generalizing mdl off size with
  | zero => rfl
  | succ fuel ih =>
    simp only [setInto, copyInto, length_replicate]
    split
    · rfl
    · next hsm =>
        generalize hn : (if size < pageSize - off % pageSize then size
          else pageSize - off % pageSize) = n
        have hle : n ≤ size := by
          split at hn <;> omega
        rw [ih, take_replicate, drop_replicate, Nat.min_eq_left hle]

theorem mmSetIntoMdl_eq (mdl : Mdl) (off : Nat) (toSet : Byte) (size : Nat) :
    mdl.mmSetIntoMdl off toSet size = mdl.mmCopyIntoMdl off (List.replicate size toSet) := by
  rw [mmSetIntoMdl, setInto_eq, mmCopyIntoMdl, length_replicate]

theorem copyFrom_eq {off size : Nat} (h : size ≤ fuel) :
    copyFrom fuel mdl off size = readAt mdl.byteAt off size := by
  induction fuel generalizing off size with
  | zero =>
    obtain rfl := Nat.le_zero.1 h
    rfl
  | succ fuel ih =>
    simp only [copyFrom]
    split
    · next hz => rw [hz]; rfl
    · next hsm =>
        have hmd : off % pageSize < pageSize := Nat.mod_lt _ (by decide)
        generalize hn : (if size < pageSize - off % pageSize then size
          else pageSize - off % pageSize) = n
        have hb : 0 < n ∧ n ≤ size ∧ off % pageSize + n ≤ pageSize := by
          split at hn <;> omega
        rw [ih (by omega)]
        obtain ⟨m, rfl⟩ := Nat.exists_eq_add_of_le hb.2.1
        rw [Nat.add_sub_cancel_left, readAt_add]
        congr 1
        refine readAt_congr fun k hk => ?_
        have hoff := Nat.div_add_mod off pageSize
        have hp : (off + k) / pageSize = off / pageSize := by
          refine Nat.div_eq_of_lt_le ?_ ?_ <;> rw [Nat.mul_comm]
          · omega
          · rw [Nat.mul_add, Nat.mul_one]
            omega
        have hof : (off + k) % pageSize = off % pageSize + k := by
          have := Nat.div_add_mod (off + k) pageSize
          rw [hp] at this
          omega
        rw [byteAt, hp, hof]

theorem mmCopyFromMdl_eq (mdl : Mdl) (off size : Nat) :
    mdl.mmCopyFromMdl off size = readAt mdl.byteAt (mdl.byteOffset + off) size := by
  rw [mmCopyFromMdl, copyFrom_eq (Nat.le_refl _), Nat.add_comm]

theorem mmCopyFromMdl_zero (mdl : Mdl) (size : Nat) : mdl.mmCopyFromMdl 0 size = mdl.data size :=
  mmCopyFromMdl_eq ..

end Mdl

end Boron.Io
