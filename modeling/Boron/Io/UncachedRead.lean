import Boron.Io.CachedRead
import Boron.Nvme.Transfer

/-! # Uncached reads (`io/rdwr.c`, `ldr/initroot.c`, `stornvme/rdwr.c`)

An uncached `IopReadFile2` hands the whole buffer to the driver, and leaves it to the driver to stop at
the end of the file and to report how many bytes it has read. `LdrInitRootRead` reports the bytes up to
the end and copies the whole buffer's length all the same; `NvmeRead` reports nothing
(`uncached_read_iff`). -/

namespace Boron.Io

open Function

open Boron.Cc (BStatus Fcb Files)

/-! ## The drivers -/

/-- `LdrInitRootRead`; `mapped` is the status of `MmMapPinnedPagesMdl`. The file is in memory from
`Ext->File->Address` on, and `LdriAddFile` has made its size the length of the file. -/
def ldrInitRootRead (mapped : BStatus) (iosb : Iosb) (fcb : Fcb) (offset : Nat) (mdlBuffer : Mdl)
    (_flags : BitVec 32) : Fcb × Mdl × Iosb × BStatus :=
  let length := mdlBuffer.byteCount
  let offsetEnd := addW offset length
  let offsetEnd := if fcb.fileLength < offsetEnd then fcb.fileLength else offsetEnd
  if offsetEnd ≤ offset then (fcb, mdlBuffer, ⟨.success, 0⟩, .success)
  else if mapped ≠ .success then (fcb, mdlBuffer, { iosb with status := mapped }, mapped)
  else
    (fcb, mdlBuffer.mmCopyIntoMdl 0 (readAt fcb.stored offset length),
      ⟨.success, offsetEnd - offset⟩, .success)

def ldrpInitRootDispatchTable (mapped : BStatus) : ReadDispatch :=
  ⟨⟨false, some fun _ => true, none, none, none⟩, some (ldrInitRootRead mapped)⟩

def ioRwNonblock : BitVec 32 := 0x1#32

/-- `STATUS_UNALIGNED_OPERATION`; the other stands for a failed assertion, after which nothing is
returned. -/
def statusUnalignedOperation : BStatus := .other 0
def halted : BStatus := .other 1

/-- A block size from 512 bytes to a page. -/
structure NvmeVolume where
  blockSizeLog : Nat
  blockSizeLog_ge : 9 ≤ blockSizeLog
  blockSizeLog_le : blockSizeLog ≤ 12

/-- What a read from a volume meets: the frames of the buffer, the page for a list, the answers to its
commands, and what the controller stores in the buffer for them. -/
structure NvmeEnv where
  frames : Nat → Nat
  prpPfn : Option Nat
  answer : Nat → BStatus
  store : (Nat → Byte) → List Nvme.ReadWrite → Mdl → Mdl

def nvmeRead (v : NvmeVolume) (env : NvmeEnv) (iosb : Iosb) (fcb : Fcb) (offset : Nat) (mdl : Mdl)
    (flags : BitVec 32) : Fcb × Mdl × Iosb × BStatus :=
  let length := mdl.byteCount
  if offset % 2 ^ v.blockSizeLog ≠ 0 ∨ length % 2 ^ v.blockSizeLog ≠ 0 then
    (fcb, mdl, { iosb with status := statusUnalignedOperation }, statusUnalignedOperation)
  else
    let lba := offset / 2 ^ v.blockSizeLog
    let blockCount := length / 2 ^ v.blockSizeLog
    if blockCount = 0 then (fcb, mdl, { iosb with status := .success }, .success)
    else if flags &&& ioRwNonblock ≠ 0 then
      (fcb, mdl, { iosb with status := .invalidParameter }, .invalidParameter)
    else
      let buffer : Nvme.Mdl :=
        ⟨mdl.byteOffset % Nvme.pageSize, length, env.frames, Nat.mod_lt _ (by decide)⟩
      match (Nvme.Controller.mk v.blockSizeLog env.prpPfn env.answer).nvmePerformIoOperation 2 []
          lba blockCount buffer false 0 0 with
      | none => (fcb, mdl, iosb, halted)
      | some (sent, status) => (fcb, env.store fcb.stored sent mdl, { iosb with status }, status)

def nvmeDispatchTable (v : NvmeVolume) (env : NvmeEnv) : ReadDispatch :=
  ⟨⟨false, some fun _ => true, none, none, none⟩, some (nvmeRead v env)⟩

/-! ## What is asked of an uncached read -/

/-- The read reports the bytes that the file has for it, has stored these at the start of the buffer,
and has left everything else as it was. -/
structure ReadCall.DeliversStored {F : Type} (c : ReadCall F) (fcb : Fcb) (mdl : Mdl)
    (r : ReadResult F) : Prop where
  bytesRead : r.iosb.information = c.available fcb.fileLength
  buffer : r.mdl.byteAt
    = writeAt mdl.byteAt mdl.byteOffset (readAt fcb.stored c.offset (c.available fcb.fileLength))

variable {F : Type} [DecidableEq F]

/-- The files, with other bytes stored for one of them. -/
def withStored (s : Files F) (f : F) (stored : Nat → Byte) : Files F :=
  DispatchTable.setFcb s f { s.fcb f with stored }

/-- Whatever the driver meets, a read that succeeds delivers, and it does not see what is stored behind
the end of the file. -/
def UncachedRight {Env : Type} (table : Env → ReadDispatch) (s : Files F) (c : ReadCall F) : Prop :=
  ∀ env e iosb (page : Nat → Nat → Byte), let mdl : Mdl := ⟨c.byteOffset, c.byteCount, page⟩
    let r := fun s => (table env).iopReadFile2 e s iosb c.file mdl c.flags c.offset false
    (r s).status = .success →
      c.DeliversStored (s.fcb c.file) mdl (r s)
        ∧ ∀ stored, (∀ i < (s.fcb c.file).fileLength, stored i = (s.fcb c.file).stored i) →
          (r (withStored s c.file stored)).mdl.byteAt = (r s).mdl.byteAt

/-- The controller is not asked to read anything, or the read is refused. -/
def ReadCall.NothingRead {F : Type} (c : ReadCall F) (v : NvmeVolume) (fileLength : Nat) : Prop :=
  wordSize ≤ c.offset + c.byteCount ∨ fileLength ≤ c.offset ∨ c.byteCount = 0
    ∨ c.offset % 2 ^ v.blockSizeLog ≠ 0 ∨ c.byteCount % 2 ^ v.blockSizeLog ≠ 0
    ∨ c.flags &&& ioRwNonblock ≠ 0
    ∨ 512 < (c.byteOffset % Nvme.pageSize + c.byteCount + (Nvme.pageSize - 1)) / Nvme.pageSize

/-! ## The way of an uncached read -/

/-- The driver's part of the read. -/
def ReadCall.driven (c : ReadCall F) (d : ReadDispatch) (fcb : Fcb) (iosb : Iosb)
    (page : Nat → Nat → Byte) : Fcb × Mdl × Iosb × BStatus :=
  d.iopReadFileLocked { iosb with information := 0 } fcb ⟨c.byteOffset, c.byteCount, page⟩
    (c.flags &&& ~~~ioRwLockedExclusive) c.offset

section

variable (d : ReadDispatch) (e : Outcomes) (s : Files F) (iosb : Iosb) (c : ReadCall F)
  (page : Nat → Nat → Byte)

theorem iopReadFile2_refused (hsm : wordSize ≤ c.offset + c.byteCount) :
    (d.iopReadFile2 e s iosb c.file ⟨c.byteOffset, c.byteCount, page⟩ c.flags c.offset false).status
      ≠ .success := by
  have hov := (DispatchTable.overflow_iff c.byteCount_lt c.offset_lt).2 (by omega)
  unfold ReadDispatch.iopReadFile2
  simp only [if_pos hov]
  nofun

section

variable (hsk : ∀ fcb, d.ioIsSeekable fcb = true)
include hsk

theorem iopReadFile2_behind
    (hsm : c.offset + c.byteCount < wordSize) (hb : (s.fcb c.file).fileLength ≤ c.offset) :
    d.iopReadFile2 e s iosb c.file ⟨c.byteOffset, c.byteCount, page⟩ c.flags c.offset false
      = ⟨s, ⟨c.byteOffset, c.byteCount, page⟩, ⟨.success, 0⟩, .success,
          some (s.fcb c.file).fileLength⟩ := by
  have hov := (DispatchTable.overflow_iff c.byteCount_lt c.offset_lt).not.2 (by omega)
  unfold ReadDispatch.iopReadFile2
  simp only [if_neg hov, hsk, if_true, ge_iff_le, if_pos hb]

theorem iopReadFile2_driven (hh : d.exclusive = false) (hsm : c.offset + c.byteCount < wordSize)
    (hw : c.offset < (s.fcb c.file).fileLength) (hc : e.lockShared = .success) :
    let r := d.iopReadFile2 e s iosb c.file ⟨c.byteOffset, c.byteCount, page⟩ c.flags c.offset false
    let driven := c.driven d (s.fcb c.file) iosb page
    r.mdl = driven.2.1 ∧ r.iosb = driven.2.2.1 ∧ r.status = driven.2.2.2 := by
  have hov := (DispatchTable.overflow_iff c.byteCount_lt c.offset_lt).not.2 (by omega)
  unfold ReadDispatch.iopReadFile2 ReadDispatch.readFromDriver ReadCall.driven
  simp only [if_neg hov, hsk, if_true, if_neg (Nat.not_le.2 hw), ge_iff_le, hh, hc,
    Bool.false_eq_true, if_false, ne_eq, not_true_eq_false]
  exact ⟨trivial, trivial, trivial⟩

theorem iopReadFile2_unlocked (hh : d.exclusive = false) (hsm : c.offset + c.byteCount < wordSize)
    (hw : c.offset < (s.fcb c.file).fileLength) (hc : e.lockShared ≠ .success) :
    (d.iopReadFile2 e s iosb c.file ⟨c.byteOffset, c.byteCount, page⟩ c.flags c.offset false).status
      ≠ .success := by
  have hov := (DispatchTable.overflow_iff c.byteCount_lt c.offset_lt).not.2 (by omega)
  unfold ReadDispatch.iopReadFile2 ReadDispatch.readFromDriver
  simp only [if_neg hov, hsk, if_true, if_neg (Nat.not_le.2 hw), ge_iff_le, hh,
    Bool.false_eq_true, if_false, ne_eq, hc, not_false_eq_true]

end

end

theorem withStored_fcb (s : Files F) (f : F) (stored : Nat → Byte) :
    (withStored s f stored).fcb f = { s.fcb f with stored } := update_self ..

/-- What an uncached read within a file comes to is up to the driver's part. -/
def ReadCall.DriverRight {Env : Type} (c : ReadCall F) (table : Env → ReadDispatch) (fcb : Fcb) :
    Prop :=
  ∀ env iosb page, let driven := fun fcb => c.driven (table env) fcb iosb page
    (driven fcb).2.2.2 = .success →
      (driven fcb).2.2.1.information = c.available fcb.fileLength
        ∧ (driven fcb).2.1.byteAt = writeAt (Mdl.byteAt ⟨c.byteOffset, c.byteCount, page⟩) c.byteOffset
            (readAt fcb.stored c.offset (c.available fcb.fileLength))
        ∧ ∀ stored, (∀ i < fcb.fileLength, stored i = fcb.stored i) →
          (driven { fcb with stored }).2.1.byteAt = (driven fcb).2.1.byteAt

/-- A read is right if it is refused, if it starts behind the end of the file, or if the driver's part
is. -/
theorem uncachedRight_iff {Env : Type} {table : Env → ReadDispatch} (s : Files F) (c : ReadCall F)
    (hsk : ∀ env fcb, (table env).ioIsSeekable fcb = true)
    (hh : ∀ env, (table env).exclusive = false) :
    UncachedRight table s c ↔ wordSize ≤ c.offset + c.byteCount
      ∨ (s.fcb c.file).fileLength ≤ c.offset ∨ c.DriverRight table (s.fcb c.file) := by
  by_cases hsu : wordSize ≤ c.offset + c.byteCount
  · refine iff_of_true ?_ (.inl hsu)
    intro env e iosb page mdl r h
    exact absurd h (iopReadFile2_refused (table env) e s iosb c page hsu)
  · by_cases hb : (s.fcb c.file).fileLength ≤ c.offset
    · refine iff_of_true ?_ (.inr (.inl hb))
      intro env e iosb page mdl r h
      have hnn : c.available (s.fcb c.file).fileLength = 0 := by
        unfold ReadCall.available
        omega
      have hr := iopReadFile2_behind (table env) e s iosb c page (hsk env) (not_le.1 hsu) hb
      refine ⟨⟨?_, ?_⟩, fun stored _ => ?_⟩
      · exact (congrArg (·.iosb.information) hr).trans hnn.symm
      · rw [hnn]
        exact (congrArg (·.mdl.byteAt) hr).trans (writeAt_nil ..).symm
      · have hr' := iopReadFile2_behind (table env) e (withStored s c.file stored) iosb c page
          (hsk env) (not_le.1 hsu) (by rw [withStored_fcb]; exact hb)
        exact (congrArg (·.mdl.byteAt) hr').trans (congrArg (·.mdl.byteAt) hr).symm
    · rw [or_iff_right hsu, or_iff_right hb]
      have hdr := fun env e (s' : Files F) iosb page
          (hlength : (s'.fcb c.file).fileLength = (s.fcb c.file).fileLength) =>
        iopReadFile2_driven (table env) e s' iosb c page (hsk env) (hh env) (not_le.1 hsu)
          (hlength ▸ not_le.1 hb)
      constructor
      · intro h env iosb page driven hok
        have hc : (⟨.success, .success, .success, fun _ => none⟩ : Outcomes).lockShared = .success :=
          rfl
        obtain ⟨hmd, hib, hss⟩ := hdr env _ s iosb page rfl hc
        obtain ⟨⟨hread, hbf⟩, hst⟩ := h env _ iosb page (hss.trans hok)
        refine ⟨hib ▸ hread, hmd ▸ hbf, fun stored hsm => ?_⟩
        obtain ⟨hmd', -, -⟩ := hdr env _ (withStored s c.file stored) iosb page
          (by rw [withStored_fcb]) hc
        rw [withStored_fcb] at hmd'
        exact hmd' ▸ hmd ▸ hst stored hsm
      · intro h env e iosb page mdl r hok
        have hc : e.lockShared = .success := by
          by_contra hc
          exact iopReadFile2_unlocked (table env) e s iosb c page (hsk env) (hh env)
            (not_le.1 hsu) (not_le.1 hb) hc hok
        obtain ⟨hmd, hib, hss⟩ := hdr env e s iosb page rfl hc
        obtain ⟨hread, hbf, hst⟩ := h env iosb page (hss ▸ hok)
        refine ⟨⟨hib ▸ hread, hmd ▸ hbf⟩, fun stored hsm => ?_⟩
        obtain ⟨hmd', -, -⟩ := hdr env e (withStored s c.file stored) iosb page
          (by rw [withStored_fcb]) hc
        rw [withStored_fcb] at hmd'
        exact hmd' ▸ hmd ▸ hst stored hsm

/-! ## The init root -/

section

omit [DecidableEq F]

theorem ldrInitRootRead_driven (c : ReadCall F) (fcb : Fcb) (iosb : Iosb) (page : Nat → Nat → Byte)
    (hsm : c.offset + c.byteCount < wordSize) (hw : c.offset < fcb.fileLength)
    (hpos : 0 < c.byteCount) :
    let driven := c.driven (ldrpInitRootDispatchTable .success) fcb iosb page
    driven.2.2.2 = .success ∧ driven.2.2.1.information = c.available fcb.fileLength
      ∧ driven.2.1.byteAt = writeAt (Mdl.byteAt ⟨c.byteOffset, c.byteCount, page⟩) c.byteOffset
          (readAt fcb.stored c.offset c.byteCount) := by
  have he : (if fcb.fileLength < c.offset + c.byteCount then fcb.fileLength
      else c.offset + c.byteCount) = min (c.offset + c.byteCount) fcb.fileLength := by
    split <;> omega
  have hst : ¬ min (c.offset + c.byteCount) fcb.fileLength ≤ c.offset := by omega
  unfold ReadCall.driven ReadDispatch.iopReadFileLocked ldrpInitRootDispatchTable ldrInitRootRead
  simp only [addW_of_lt hsm, he, if_neg hst, ne_eq, not_true_eq_false, if_false]
  refine ⟨trivial, rfl, ?_⟩
  rw [Mdl.byteAt_mmCopyIntoMdl, Nat.add_zero]

theorem initRoot_driverRight_iff (c : ReadCall F) (fcb : Fcb)
    (hsu : c.offset + c.byteCount < wordSize) (hw : c.offset < fcb.fileLength) :
    c.DriverRight ldrpInitRootDispatchTable fcb ↔ c.offset + c.byteCount ≤ fcb.fileLength := by
  rcases Nat.eq_zero_or_pos c.byteCount with hz | hpos
  · refine iff_of_true ?_ (by omega)
    intro mapped iosb page driven _
    have hdr : ∀ fcb', fcb'.fileLength = fcb.fileLength →
        driven fcb' = (fcb', ⟨c.byteOffset, c.byteCount, page⟩, ⟨.success, 0⟩, .success) := by
      intro fcb' hlength
      have hst : (if fcb.fileLength < c.offset + c.byteCount then fcb.fileLength
          else c.offset + c.byteCount) ≤ c.offset := by
        split <;> omega
      change c.driven _ _ _ _ = _
      unfold ReadCall.driven ReadDispatch.iopReadFileLocked ldrpInitRootDispatchTable ldrInitRootRead
      simp only [addW_of_lt hsu, hlength, if_pos hst]
    have hnn : c.available fcb.fileLength = 0 := by
      unfold ReadCall.available
      omega
    rw [hdr fcb rfl, hnn]
    refine ⟨rfl, (writeAt_nil ..).symm, fun stored _ => ?_⟩
    rw [hdr { fcb with stored } rfl]
  · constructor
    · intro h
      by_contra hp
      -- the byte behind the end of the file is copied
      obtain ⟨hok, -, hb⟩ :=
        ldrInitRootRead_driven c fcb ⟨.success, 0⟩ (fun _ _ => 0) hsu hw hpos
      obtain ⟨-, -, hsd⟩ := h .success ⟨.success, 0⟩ (fun _ _ => 0) hok
      obtain ⟨x, hx⟩ : ∃ x : Byte, x ≠ fcb.stored fcb.fileLength := by
        by_cases hz : fcb.stored fcb.fileLength = 0
        · exact ⟨1, hz ▸ by decide⟩
        · exact ⟨0, fun h => hz h.symm⟩
      have hsm := hsd (update fcb.stored fcb.fileLength x) fun i hi => update_of_ne hi.ne ..
      obtain ⟨-, -, hb'⟩ := ldrInitRootRead_driven c
        { fcb with stored := update fcb.stored fcb.fileLength x } ⟨.success, 0⟩
        (fun _ _ => 0) hsu hw hpos
      have hy := congrFun (hb'.symm.trans (hsm.trans hb)) (c.byteOffset + (fcb.fileLength - c.offset))
      rw [writeAt_apply_of_lt (by rw [length_readAt]; omega),
        writeAt_apply_of_lt (by rw [length_readAt]; omega), getElem_readAt, getElem_readAt,
        Nat.add_sub_cancel' hw.le] at hy
      exact hx ((update_self ..).symm.trans hy)
    · intro hin mapped iosb page driven hok
      have ha : c.available fcb.fileLength = c.byteCount := by
        unfold ReadCall.available
        omega
      have hmp : mapped = .success := by
        by_contra hmp
        have hst : ¬ (if fcb.fileLength < c.offset + c.byteCount then fcb.fileLength
            else c.offset + c.byteCount) ≤ c.offset := by
          split <;> omega
        change (c.driven _ _ _ _).2.2.2 = _ at hok
        unfold ReadCall.driven ReadDispatch.iopReadFileLocked ldrpInitRootDispatchTable
          ldrInitRootRead at hok
        simp only [addW_of_lt hsu, if_neg hst, ne_eq, hmp, not_false_eq_true, if_true] at hok
      subst hmp
      obtain ⟨-, hread, hb⟩ := ldrInitRootRead_driven c fcb iosb page hsu hw hpos
      refine ⟨hread, ha.symm ▸ hb, fun stored hsm => ?_⟩
      obtain ⟨-, -, hb'⟩ :=
        ldrInitRootRead_driven c { fcb with stored } iosb page hsu hw hpos
      refine hb'.trans (Eq.trans ?_ hb.symm)
      congr 1
      exact readAt_congr fun k hk => hsm _ (by omega)

/-! ## NVMe -/

theorem nvmeRead_information (v : NvmeVolume) (env : NvmeEnv) (c : ReadCall F) (fcb : Fcb)
    (iosb : Iosb) (page : Nat → Nat → Byte) :
    (c.driven (nvmeDispatchTable v env) fcb iosb page).2.2.1.information = 0 := by
  unfold ReadCall.driven ReadDispatch.iopReadFileLocked nvmeDispatchTable nvmeRead
  dsimp only
  split
  · rfl
  · split
    · rfl
    · split
      · rfl
      · split <;> rfl

/-- A read of no bytes leaves the buffer as it was. -/
theorem nvmeRead_empty (v : NvmeVolume) (env : NvmeEnv) (c : ReadCall F) (fcb : Fcb)
    (iosb : Iosb) (page : Nat → Nat → Byte) (hz : c.byteCount = 0) :
    (c.driven (nvmeDispatchTable v env) fcb iosb page).2.1 = ⟨c.byteOffset, c.byteCount, page⟩ := by
  unfold ReadCall.driven ReadDispatch.iopReadFileLocked nvmeDispatchTable nvmeRead
  simp only [hz, Nat.zero_div, if_true]
  split <;> rfl

theorem nonblock_of_masked (flags : BitVec 32) :
    flags &&& ~~~ioRwLockedExclusive &&& ioRwNonblock = flags &&& ioRwNonblock := by
  rw [BitVec.and_assoc]
  rfl

theorem nvmeRead_refused (v : NvmeVolume) (env : NvmeEnv) (c : ReadCall F) (fcb : Fcb)
    (iosb : Iosb) (page : Nat → Nat → Byte) (hpos : c.byteCount ≠ 0)
    (h : c.offset % 2 ^ v.blockSizeLog ≠ 0 ∨ c.byteCount % 2 ^ v.blockSizeLog ≠ 0
      ∨ c.flags &&& ioRwNonblock ≠ 0
      ∨ 512 < (c.byteOffset % Nvme.pageSize + c.byteCount + (Nvme.pageSize - 1)) / Nvme.pageSize) :
    (c.driven (nvmeDispatchTable v env) fcb iosb page).2.2.2 ≠ .success := by
  unfold ReadCall.driven ReadDispatch.iopReadFileLocked nvmeDispatchTable nvmeRead
  simp only [nonblock_of_masked]
  by_cases ha : c.offset % 2 ^ v.blockSizeLog ≠ 0 ∨ c.byteCount % 2 ^ v.blockSizeLog ≠ 0
  · rw [if_pos ha]
    intro h
    cases h
  · have hb : c.byteCount / 2 ^ v.blockSizeLog ≠ 0 := by
      intro hz
      have hmd := Nat.div_add_mod c.byteCount (2 ^ v.blockSizeLog)
      rw [hz, Nat.mul_zero] at hmd
      omega
    rw [if_neg ha, if_neg hb]
    by_cases hnb : c.flags &&& ioRwNonblock ≠ 0
    · rw [if_pos hnb]
      intro h
      cases h
    · rw [if_neg hnb]
      have hpages : 512 < Nvme.Mdl.numberPages
          ⟨c.byteOffset % Nvme.pageSize, c.byteCount, env.frames, Nat.mod_lt _ (by decide)⟩ := by
        rcases h with h | h | h | h
        · exact absurd (.inl h) ha
        · exact absurd (.inr h) ha
        · exact absurd h hnb
        · exact h
      unfold Nvme.Controller.nvmePerformIoOperation
      rw [if_pos hpages]
      intro h
      cases h

theorem nvme_driverRight_iff (v : NvmeVolume) (c : ReadCall F) (fcb : Fcb)
    (hsm : c.offset + c.byteCount < wordSize) (hw : c.offset < fcb.fileLength) :
    c.DriverRight (nvmeDispatchTable v) fcb ↔ c.byteCount = 0
      ∨ c.offset % 2 ^ v.blockSizeLog ≠ 0 ∨ c.byteCount % 2 ^ v.blockSizeLog ≠ 0
      ∨ c.flags &&& ioRwNonblock ≠ 0
      ∨ 512 < (c.byteOffset % Nvme.pageSize + c.byteCount + (Nvme.pageSize - 1)) / Nvme.pageSize := by
  constructor
  · intro h
    by_contra hot
    simp only [not_or, ne_eq, not_not, not_lt] at hot
    obtain ⟨hpos, hof, hcount, hnb, hpages⟩ := hot
    have hb : c.byteCount / 2 ^ v.blockSizeLog ≠ 0 := by
      intro hz
      have hmd := Nat.div_add_mod c.byteCount (2 ^ v.blockSizeLog)
      rw [hz, Nat.mul_zero, hcount] at hmd
      exact hpos hmd.symm
    let t : Nvme.Transfer :=
      { mdl := ⟨c.byteOffset % Nvme.pageSize, c.byteCount, fun i => i, Nat.mod_lt _ (by decide)⟩
        lba := c.offset / 2 ^ v.blockSizeLog
        blockSizeLog := v.blockSizeLog
        blockSizeLog_ge := v.blockSizeLog_ge
        blockSizeLog_le := v.blockSizeLog_le
        aligned := Nat.dvd_of_mod_eq_zero hcount
        nonempty := Nat.pos_of_ne_zero hpos
        pages_le := hpages
        blocks_le := by
          have := Nat.div_le_self c.offset (2 ^ v.blockSizeLog)
          have := Nat.div_le_self c.byteCount (2 ^ v.blockSizeLog)
          change c.offset / 2 ^ v.blockSizeLog + c.byteCount / 2 ^ v.blockSizeLog ≤ wordSize
          omega }
    obtain ⟨cmd, hrn, -, -⟩ :=
      @Nvme.Transfer.perform_list t false (some 0) (fun _ => .success) (fun _ => nofun)
    let env : NvmeEnv := ⟨fun i => i, some 0, fun _ => .success, fun _ _ mdl => mdl⟩
    have hok : (c.driven (nvmeDispatchTable v env) fcb ⟨.success, 0⟩ fun _ _ => 0).2.2.2
        = .success := by
      unfold ReadCall.driven ReadDispatch.iopReadFileLocked nvmeDispatchTable nvmeRead
      simp only [nonblock_of_masked]
      rw [if_neg (by simp [hof, hcount]), if_neg hb, if_neg (not_not.2 hnb)]
      change (match t.perform false (some 0) (fun _ => .success) with
        | none => _
        | some (sent, status) => _ : Fcb × Mdl × Iosb × BStatus).2.2.2 = _
      rw [hrn]
    have hread := (h env ⟨.success, 0⟩ (fun _ _ => 0) hok).1
    rw [nvmeRead_information] at hread
    unfold ReadCall.available at hread
    omega
  · intro h env iosb page dri hok
    have hz : c.byteCount = 0 := by
      by_contra hpos
      exact nvmeRead_refused v env c fcb iosb page hpos (h.resolve_left hpos) hok
    have hnn : c.available fcb.fileLength = 0 := by
      unfold ReadCall.available
      omega
    refine ⟨(nvmeRead_information v env c fcb iosb page).trans hnn.symm, ?_, fun sto _ => ?_⟩
    · rw [hnn]
      exact (congrArg Mdl.byteAt (nvmeRead_empty v env c fcb iosb page hz)).trans (writeAt_nil ..).symm
    · exact congrArg Mdl.byteAt ((nvmeRead_empty v env c _ iosb page hz).trans
        (nvmeRead_empty v env c fcb iosb page hz).symm)

end

/-- **An uncached read from the init root is right just if it stays within the file, starts behind its
end or is refused, and one from an NVMe volume just if nothing is read.** -/
theorem uncached_read_iff (s : Files F) (c : ReadCall F) (v : NvmeVolume) :
    (UncachedRight ldrpInitRootDispatchTable s c ↔ c.Within (s.fcb c.file).fileLength)
      ∧ (UncachedRight (nvmeDispatchTable v) s c ↔ c.NothingRead v (s.fcb c.file).fileLength) := by
  rw [uncachedRight_iff s c (fun _ _ => rfl) (fun _ => rfl),
    uncachedRight_iff s c (fun _ _ => rfl) (fun _ => rfl)]
  unfold ReadCall.Within ReadCall.NothingRead
  by_cases hsm : wordSize ≤ c.offset + c.byteCount
  · simp [hsm]
  · by_cases hb : (s.fcb c.file).fileLength ≤ c.offset
    · simp [hb]
    · rw [initRoot_driverRight_iff c _ (not_le.1 hsm) (not_le.1 hb),
        nvme_driverRight_iff v c _ (not_le.1 hsm) (not_le.1 hb)]
      exact ⟨Iff.rfl, Iff.rfl⟩

/-- A file of ten bytes that counts up. -/
def tenStored : Files Unit where
  fcb _ := ⟨10, fun i => .ofNat i, fun i => .ofNat i⟩
  viewCache _ := []
  viewCacheLru := []

/-- Two bytes of the init root from the last one of the file on: the byte behind it is stored too. And
a block of a volume that is read is not counted. -/
theorem uncached_read_past_end :
    (¬ ∀ (s : Files Unit) (c : ReadCall Unit), UncachedRight ldrpInitRootDispatchTable s c)
      ∧ ¬ ∀ (v : NvmeVolume) (s : Files Unit) (c : ReadCall Unit),
        UncachedRight (nvmeDispatchTable v) s c := by
  constructor
  · intro h
    have hrg := h tenStored ⟨(), 0, 2, 0, 9, by decide, by decide⟩ .success
      ⟨.success, .success, .success, fun _ => none⟩ ⟨.success, 0⟩ (fun _ _ => 0) (by decide +kernel)
    have hb := congrFun hrg.1.buffer 1
    exact absurd hb (by decide +kernel)
  · intro h
    have hrg := h ⟨9, by decide, by decide⟩ ⟨fun _ => ⟨512, fun _ => 0, fun _ => 0⟩, fun _ => [], []⟩
      ⟨(), 0, 512, 0, 0, by decide, by decide⟩
      ⟨fun i => i, some 0, fun _ => .success, fun _ _ mdl => mdl⟩
      ⟨.success, .success, .success, fun _ => none⟩ ⟨.success, 0⟩ (fun _ _ => 0) (by decide +kernel)
    exact absurd hrg.1.bytesRead (by decide +kernel)

end Boron.Io
