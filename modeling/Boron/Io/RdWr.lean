import Boron.Lib.Word
import Boron.Cc.ViewCache

/-! # Writing files (`io/rdwr.c`)

`IopWriteFile2` locks the file in one of four ways, one of which extends the file first, cuts the
transfer down to what lies within the file, and hands it to the view cache or to the driver. A
write that succeeds should have stored the whole buffer.

The driver's methods are parameters; the outcome of each wait and of each mapping is up to the
system. `write_stored_iff` says for which writes the code keeps the promise with every driver that
keeps its own. -/

namespace Boron.Io

open Function

open Boron.Cc (BStatus Fcb Files)

/-! ## Drivers -/

/-- `IO_STATUS_BLOCK`; `information` is `BytesRead` and `BytesWritten`, which share their place. -/
structure Iosb where
  status : BStatus
  information : Nat

/-- The part of an `IO_DISPATCH_TABLE` that writing uses; `exclusive` is
`DISPATCH_FLAG_EXCLUSIVE`. -/
structure DispatchTable where
  exclusive : Bool
  seekable : Option (Fcb → Bool)
  write : Option (Iosb → Fcb → Nat → Mdl → BitVec 32 → Fcb × Iosb × BStatus)
  resize : Option (Fcb → Nat → Fcb × BStatus)
  touch : Option (Fcb → Bool → Fcb × BStatus)

def ioRwAppend : BitVec 32 := 0x2#32
def ioRwSharedFileOffset : BitVec 32 := 0x10#32
def ioRwLockedExclusive : BitVec 32 := 0x20000000#32

/-- How the waits of a call end, and which windows of the file can be mapped. -/
structure Outcomes where
  offsetMutex : BStatus
  lockExclusive : BStatus
  lockShared : BStatus
  space : Nat → Option Nat

/-! ## Calls -/

/-- A call of `IopWriteFile`, with the file object's `CurrentFileOffset`. Every number is one that
fits a 64-bit word. -/
structure WriteCall (F : Type) where
  file : F
  currentFileOffset : Nat
  mdl : Mdl
  flags : BitVec 32
  offset : Nat
  cached : Bool
  currentFileOffset_lt : currentFileOffset < wordSize
  byteCount_lt : mdl.byteCount < wordSize
  offset_lt : offset < wordSize

/-- What a call leaves; `outFileSize` is `none` where `*OutFileSize` is not set. -/
structure Written (F : Type) where
  files : Files F
  iosb : Iosb
  status : BStatus
  outFileSize : Option Nat

namespace WriteCall

variable {F : Type} (c : WriteCall F)

/-- The offset that a call starts from. -/
def startOffset : Nat :=
  if c.flags &&& ioRwSharedFileOffset ≠ 0 then c.currentFileOffset else c.offset

/-- Where the written range of a call starts. -/
def place (s : Files F) : Nat :=
  if c.flags &&& ioRwAppend ≠ 0 then (s.fcb c.file).fileLength else c.startOffset

theorem startOffset_lt : c.startOffset < wordSize := by
  unfold startOffset
  split
  · exact c.currentFileOffset_lt
  · exact c.offset_lt

end WriteCall

/-- What the locking part of `IopWriteFile2` leaves. -/
structure Locked where
  fcb : Fcb
  flags : BitVec 32
  offset : Nat
  status : BStatus

namespace DispatchTable

variable (d : DispatchTable)

def ioIsSeekable (fcb : Fcb) : Bool :=
  match d.seekable with
  | none => false
  | some seekable => seekable fcb

def iopTouchFile (fcb : Fcb) (isWrite : Bool) : Fcb × BStatus :=
  match d.touch with
  | none => (fcb, .unsupportedFunction)
  | some touch => touch fcb isWrite

def iopSetFileSize (fcb : Fcb) (newFileSize : Nat) : Fcb × BStatus :=
  match d.resize with
  | none => (fcb, .unsupportedFunction)
  | some resize => resize fcb newFileSize

def iopWriteFileLocked (iosb : Iosb) (fcb : Fcb) (mdl : Mdl) (flags : BitVec 32) (offset : Nat) :
    Fcb × Iosb × BStatus :=
  match d.write with
  | none => (fcb, { iosb with status := .unsupportedFunction }, .unsupportedFunction)
  | some write => write iosb fcb offset mdl flags

/-! ## Writing -/

/-- The locking part of `IopWriteFile2`: the lock's status if it cannot be taken. -/
def lockForWrite (e : Outcomes) (fcb : Fcb) (flags : BitVec 32) (offset endOffset : Nat)
    (isSeekable : Bool) : Except BStatus Locked :=
  if flags &&& ioRwAppend ≠ 0 then
    if e.lockExclusive ≠ .success then .error e.lockExclusive
    else .ok ⟨fcb, flags ||| ioRwLockedExclusive, fcb.fileLength, e.lockExclusive⟩
  else if d.exclusive then
    if e.lockExclusive ≠ .success then .error e.lockExclusive
    else .ok ⟨fcb, flags ||| ioRwLockedExclusive, offset, e.lockExclusive⟩
  else if isSeekable ∧ endOffset > fcb.fileLength then
    if e.lockExclusive ≠ .success then .error e.lockExclusive
    else
      -- A failure to expand the file is not reported here.
      let (fcb, status) := d.iopSetFileSize fcb endOffset
      .ok ⟨fcb, flags ||| ioRwLockedExclusive, offset, status⟩
  else
    if e.lockShared ≠ .success then .error e.lockShared
    else .ok ⟨fcb, flags, offset, e.lockShared⟩

variable {F : Type} [DecidableEq F]

def setFcb (s : Files F) (f : F) (fcb : Fcb) : Files F :=
  { s with fcb := update s.fcb f fcb }

/-- The transfer part of `IopWriteFile2`, with the file locked and the byte count cut down. -/
def transfer (e : Outcomes) (s : Files F) (iosb : Iosb) (f : F) (mdl : Mdl) (l : Locked)
    (byteCount : Nat) (cached : Bool) (outFileSize : Nat) : Written F :=
  if cached then
    let (s, status) := (setFcb s f l.fcb).ccWriteFileMdl e.space f l.offset mdl 0 byteCount
    let information := if status = .success then byteCount else iosb.information
    ⟨s, ⟨status, information⟩, status, some outFileSize⟩
  else if l.status ≠ .success then
    ⟨setFcb s f l.fcb, { iosb with status := l.status }, l.status, some outFileSize⟩
  else
    let (fcb, iosb, status) := d.iopWriteFileLocked iosb l.fcb mdl l.flags l.offset
    let fcb := if status = .success then (d.iopTouchFile fcb true).1 else fcb
    ⟨setFcb s f fcb, iosb, status, some outFileSize⟩

def iopWriteFile2 (e : Outcomes) (s : Files F) (iosb : Iosb) (f : F) (mdl : Mdl)
    (flags : BitVec 32) (offset : Nat) (cached : Bool) : Written F :=
  if d.write.isNone then
    ⟨s, { iosb with status := .unsupportedFunction }, .unsupportedFunction, none⟩
  else
    let flags := flags &&& ~~~ioRwLockedExclusive
    let iosb : Iosb := { iosb with information := 0 }
    let isSeekable := d.ioIsSeekable (s.fcb f)
    let byteCount := mdl.byteCount
    if addW byteCount offset < byteCount ∨ addW byteCount offset < offset then
      ⟨s, iosb, .invalidParameter, none⟩
    else
      let cached := isSeekable && cached
      let endOffset := addW offset mdl.byteCount
      match d.lockForWrite e (s.fcb f) flags offset endOffset isSeekable with
      | .error status => ⟨s, { iosb with status }, status, none⟩
      | .ok l =>
        if isSeekable then
          let fileSize := l.fcb.fileLength
          if l.offset ≥ fileSize then
            ⟨setFcb s f l.fcb, ⟨.success, 0⟩, .success, some fileSize⟩
          else
            let byteCount :=
              if addW byteCount l.offset ≥ fileSize then fileSize - l.offset else byteCount
            d.transfer e s iosb f mdl l byteCount cached fileSize
        else d.transfer e s iosb f mdl l byteCount cached 0

/-- `IopWriteFile`; the second component is the new `CurrentFileOffset`. -/
def iopWriteFile (e : Outcomes) (s : Files F) (iosb : Iosb) (c : WriteCall F) :
    Written F × Nat :=
  if c.flags &&& ioRwSharedFileOffset ≠ 0 then
    if e.offsetMutex ≠ .success then (⟨s, iosb, e.offsetMutex, none⟩, c.currentFileOffset)
    else
      let r := d.iopWriteFile2 e s iosb c.file c.mdl c.flags c.currentFileOffset c.cached
      (r, addW c.currentFileOffset r.iosb.information)
  else (d.iopWriteFile2 e s iosb c.file c.mdl c.flags c.offset c.cached, c.currentFileOffset)

/-! ## What a write promises -/

/-- A driver that keeps its promises: the file is seekable, `Write` stores a buffer that lies within
the file as a whole and does not change the length, `Resize` succeeds, and `Touch` changes
neither. -/
structure Conforms : Prop where
  seekable : ∀ fcb, d.ioIsSeekable fcb
  implemented : d.write.isSome
  write : ∀ iosb fcb mdl flags offset, offset + mdl.byteCount ≤ fcb.fileLength →
    (d.iopWriteFileLocked iosb fcb mdl flags offset).2.2 = .success →
    (d.iopWriteFileLocked iosb fcb mdl flags offset).2.1.information = mdl.byteCount ∧
    (d.iopWriteFileLocked iosb fcb mdl flags offset).1.fileLength = fcb.fileLength ∧
    readAt (d.iopWriteFileLocked iosb fcb mdl flags offset).1.stored offset mdl.byteCount
      = mdl.data mdl.byteCount
  resize : ∀ fcb n, (d.iopSetFileSize fcb n).2 = .success ∧ (d.iopSetFileSize fcb n).1.fileLength = n
  touch : ∀ fcb, (d.iopTouchFile fcb true).1.fileLength = fcb.fileLength ∧
    (d.iopTouchFile fcb true).1.stored = fcb.stored

/-- The bytes that a write in this mode goes to. -/
def contents (fcb : Fcb) (cached : Bool) : Nat → Byte := if cached then fcb.mapped else fcb.stored

/-- The file after a write that has stored the whole buffer at `place`. -/
def Stores (r : Written F) (f : F) (mdl : Mdl) (cached : Bool) (length place : Nat) : Prop :=
  r.iosb.information = mdl.byteCount ∧
  (r.files.fcb f).fileLength = max length (place + mdl.byteCount) ∧
  readAt (contents (r.files.fcb f) cached) place mdl.byteCount = mdl.data mdl.byteCount

/-- However its waits end, the call does not succeed unless it has stored the whole buffer. -/
def StoresAll (s : Files F) (c : WriteCall F) : Prop :=
  ∀ e iosb, (d.iopWriteFile e s iosb c).1.status = .success →
    Stores (d.iopWriteFile e s iosb c).1 c.file c.mdl c.cached (s.fcb c.file).fileLength (c.place s)

/-- The writes that need no bytes past the end of the file, or that the code extends the file for;
a write past the end of the address range is refused. -/
def Extends (exclusive : Bool) (length : Nat) (c : WriteCall F) : Prop :=
  wordSize ≤ c.startOffset + c.mdl.byteCount ∨
    if c.flags &&& ioRwAppend ≠ 0 then c.mdl.byteCount = 0
    else exclusive = true → c.startOffset + c.mdl.byteCount ≤ length

/-! ## The steps of a write -/

variable {e : Outcomes} {s : Files F} {iosb : Iosb}

theorem iopWriteFile_eq {c : WriteCall F}
    (h : e.offsetMutex = .success ∨ (d.iopWriteFile e s iosb c).1.status = .success) :
    (d.iopWriteFile e s iosb c).1
      = d.iopWriteFile2 e s iosb c.file c.mdl c.flags c.startOffset c.cached := by
  unfold iopWriteFile WriteCall.startOffset at *
  split
  · next hh =>
      rw [if_pos hh] at h
      split
      · next hmt =>
          rw [if_pos hmt] at h
          exact (hmt (h.elim id id)).elim
      · rfl
  · rfl

theorem overflow_iff {a b : Nat} (ha : a < wordSize) (hb : b < wordSize) :
    (addW a b < a ∨ addW a b < b) ↔ wordSize ≤ a + b := by
  rw [addW]
  unfold wordSize at *
  omega

theorem masked_and_append (flags : BitVec 32) :
    flags &&& ~~~ioRwLockedExclusive &&& ioRwAppend = flags &&& ioRwAppend := by
  rw [BitVec.and_assoc]
  rfl

variable {mdl : Mdl} {offset : Nat}

/-- The way a call that is not refused takes. -/
theorem iopWriteFile2_eq (hd : d.Conforms) (e : Outcomes) (s : Files F) (iosb : Iosb) (f : F) (flags : BitVec 32) (cac : Bool)
    (hsm : offset + mdl.byteCount < wordSize) :
    d.iopWriteFile2 e s iosb f mdl flags offset cac
      = match d.lockForWrite e (s.fcb f) (flags &&& ~~~ioRwLockedExclusive) offset
          (offset + mdl.byteCount) true with
        | .error st => ⟨s, ⟨st, 0⟩, st, none⟩
        | .ok l =>
          if l.offset ≥ l.fcb.fileLength then
            ⟨setFcb s f l.fcb, ⟨.success, 0⟩, .success, some l.fcb.fileLength⟩
          else
            d.transfer e s { iosb with information := 0 } f mdl l
              (if addW mdl.byteCount l.offset ≥ l.fcb.fileLength then l.fcb.fileLength - l.offset
              else mdl.byteCount) cac l.fcb.fileLength := by
  have hw : ¬ d.write.isNone = true := by
    rw [Option.isNone_iff_eq_none]
    exact Option.isSome_iff_ne_none.1 hd.implemented
  have hov : ¬ (addW mdl.byteCount offset < mdl.byteCount ∨ addW mdl.byteCount offset < offset) := by
    rw [overflow_iff (by omega) (by omega)]
    omega
  rw [iopWriteFile2, if_neg hw]
  simp only [if_neg hov, hd.seekable, Bool.true_and, addW_of_lt hsm]
  rfl

/-- A call whose range is past the address range is refused. -/
theorem iopWriteFile2_refused (e : Outcomes) (s : Files F) (iosb : Iosb) (f : F) (flags : BitVec 32) (cac : Bool) (hcount : mdl.byteCount < wordSize)
    (hof : offset < wordSize) (hsm : wordSize ≤ offset + mdl.byteCount) :
    (d.iopWriteFile2 e s iosb f mdl flags offset cac).status ≠ .success := by
  have hov := (overflow_iff hcount hof).2 (by omega)
  unfold iopWriteFile2
  split
  · nofun
  · simp only [if_pos hov]
    nofun

variable {flags : BitVec 32} {l : Locked}

variable {fcb : Fcb} {eo : Nat}

/-- What the lock leaves: the file as it is, at its end for an append and at the offset otherwise,
or extended. -/
theorem lockForWrite_ok (h : d.lockForWrite e fcb flags offset eo true = .ok l) :
    (flags &&& ioRwAppend ≠ 0 ∧ l.fcb = fcb ∧ l.offset = fcb.fileLength) ∨
    (flags &&& ioRwAppend = 0 ∧ l.offset = offset ∧
      (l.fcb = fcb ∧ (d.exclusive = true ∨ eo ≤ fcb.fileLength) ∨
        eo > fcb.fileLength ∧ d.exclusive = false ∧ l.fcb = (d.iopSetFileSize fcb eo).1)) := by
  unfold lockForWrite at h
  split at h
  · next ha =>
      split at h
      · cases h
      · cases h
        exact .inl ⟨ha, rfl, rfl⟩
  · next ha =>
      refine .inr ⟨not_not.1 ha, ?_⟩
      split at h
      · next hc =>
          split at h
          · cases h
          · cases h
            exact ⟨rfl, .inl ⟨rfl, .inl hc⟩⟩
      · next hc =>
          split at h
          · next he =>
              split at h
              · cases h
              · cases h
                exact ⟨rfl, .inr ⟨he.2, Bool.not_eq_true _ ▸ hc, rfl⟩⟩
          · next he =>
              split at h
              · cases h
              · cases h
                have : eo ≤ fcb.fileLength := by
                  by_contra hlt
                  exact he ⟨rfl, by omega⟩
                exact ⟨rfl, .inl ⟨rfl, .inr this⟩⟩

/-- A lock that is not taken fails the call. -/
theorem lockForWrite_error {is : Bool} {st : BStatus}
    (h : d.lockForWrite e fcb flags offset eo is = .error st) :
    st ≠ .success := by
  unfold lockForWrite at h
  split at h
  · split at h
    · next hc => cases h; exact hc
    · cases h
  · split at h
    · split at h
      · next hc => cases h; exact hc
      · cases h
    · split at h
      · split at h
        · next hc => cases h; exact hc
        · cases h
      · split at h
        · next hc => cases h; exact hc
        · cases h

variable {f : F}

variable {cac : Bool} {len : Nat}

theorem transfer_stores (hd : d.Conforms) {ofs : Nat} (hft : l.offset + mdl.byteCount ≤ l.fcb.fileLength)
    (hlength : l.fcb.fileLength = max len (l.offset + mdl.byteCount))
    (hok : (d.transfer e s iosb f mdl l mdl.byteCount cac ofs).status = .success) :
    Stores (d.transfer e s iosb f mdl l mdl.byteCount cac ofs) f mdl cac len l.offset := by
  unfold transfer at hok ⊢
  cases cac with
  | true =>
    simp only [if_true] at hok ⊢
    have hfl := Files.ccWriteFileMdl_spec _ _ _ _ _ _ _ hok
    refine ⟨if_pos hok, ?_, ?_⟩
    · rw [hfl]
      simpa only [Files.writeMapped, update_self, setFcb] using hlength
    · rw [hfl, contents, if_pos rfl, Mdl.mmCopyFromMdl_zero]
      simp only [Files.writeMapped, update_self]
      exact readAt_writeAt_self _ _ (Mdl.length_data ..)
  | false =>
    simp only [Bool.false_eq_true, if_false] at hok ⊢
    split at hok
    · next hst => exact (hst hok).elim
    · next hst =>
        obtain ⟨hb, hp, hdt⟩ := hd.write iosb l.fcb mdl l.flags l.offset hft hok
        obtain ⟨hc, htd⟩ := hd.touch (d.iopWriteFileLocked iosb l.fcb mdl l.flags l.offset).1
        simp only [if_neg hst, show (d.iopWriteFileLocked iosb l.fcb mdl l.flags l.offset).2.2
          = BStatus.success from hok, if_true]
        refine ⟨hb, ?_, ?_⟩
        · simp only [setFcb, update_self]
          rw [hc, hp, hlength]
        · simp only [setFcb, update_self, contents, Bool.false_eq_true, if_false]
          rw [htd, hdt]

/-- Once the file is locked and reaches past the written range, the write stores the whole
buffer. -/
theorem locked_stores (hd : d.Conforms) (hsm : offset + mdl.byteCount < wordSize)
    (hlc : d.lockForWrite e (s.fcb f) (flags &&& ~~~ioRwLockedExclusive) offset
      (offset + mdl.byteCount) true = .ok l)
    (hft : l.offset + mdl.byteCount ≤ l.fcb.fileLength)
    (hlength : l.fcb.fileLength = max len (l.offset + mdl.byteCount))
    (hp : l.offset < l.fcb.fileLength → l.offset = offset)
    (hok : (d.iopWriteFile2 e s iosb f mdl flags offset cac).status = .success) :
    Stores (d.iopWriteFile2 e s iosb f mdl flags offset cac) f mdl cac len l.offset := by
  rw [d.iopWriteFile2_eq hd e s iosb f flags cac hsm, hlc] at hok ⊢
  simp only at hok ⊢
  split at hok
  · next he =>
      rw [if_pos he]
      have hz : mdl.byteCount = 0 := by omega
      refine ⟨hz.symm, ?_, ?_⟩
      · simp only [setFcb, update_self, hlength]
      · rw [hz]
        rfl
  · next he =>
      rw [if_neg he]
      have hc : (if addW mdl.byteCount l.offset ≥ l.fcb.fileLength
          then l.fcb.fileLength - l.offset else mdl.byteCount) = mdl.byteCount := by
        rw [addW_of_lt (by omega)]
        split <;> omega
      rw [hc] at hok ⊢
      exact d.transfer_stores hd hft hlength hok

/-- Where the file reaches far enough, or the code makes it, every successful write stores the
whole buffer. -/
theorem storesAll_of_extends (hd : d.Conforms) {c : WriteCall F}
    (h : Extends d.exclusive (s.fcb c.file).fileLength c) : d.StoresAll s c := by
  intro e iosb hok
  have hcl := d.iopWriteFile_eq (.inr hok)
  rw [hcl] at hok ⊢
  by_cases hsm : wordSize ≤ c.startOffset + c.mdl.byteCount
  · exact (d.iopWriteFile2_refused e s iosb c.file c.flags c.cached c.byteCount_lt c.startOffset_lt
      hsm hok).elim
  replace hsm : c.startOffset + c.mdl.byteCount < wordSize := by omega
  replace h := h.resolve_left (by omega)
  cases hc : d.lockForWrite e (s.fcb c.file) (c.flags &&& ~~~ioRwLockedExclusive) c.startOffset
    (c.startOffset + c.mdl.byteCount) true with
  | error st =>
    rw [d.iopWriteFile2_eq hd e s iosb c.file c.flags c.cached hsm, hc] at hok
    exact (d.lockForWrite_error hc hok).elim
  | ok l =>
    have hin := d.lockForWrite_ok hc
    rw [masked_and_append] at hin
    have hp : c.place s = l.offset := by
      unfold WriteCall.place
      obtain ⟨ha, -, hof⟩ | ⟨ha, hof, -⟩ := hin
      · rw [if_pos ha, hof]
      · rw [if_neg (not_not.2 ha), hof]
    rw [hp]
    obtain ⟨ha, hfcb, hof⟩ | ⟨ha, hof, hrc⟩ := hin
    · rw [if_pos ha] at h
      refine d.locked_stores hd hsm hc ?_ ?_ ?_ hok <;> rw [hfcb] <;> omega
    · rw [if_neg (not_not.2 ha)] at h
      obtain ⟨hfcb, hw⟩ | ⟨hln, -, hfcb⟩ := hrc
      · have hft : c.startOffset + c.mdl.byteCount ≤ (s.fcb c.file).fileLength :=
          hw.elim h id
        refine d.locked_stores hd hsm hc ?_ ?_ (fun _ => hof) hok <;> rw [hfcb] <;> omega
      · have hsize := (hd.resize (s.fcb c.file) (c.startOffset + c.mdl.byteCount)).2
        refine d.locked_stores hd hsm hc ?_ ?_ (fun _ => hof) hok <;>
          rw [hfcb, hsize] <;> omega

/-! ## Writes that lose data -/

/-- A driver whose `Write`, like that of the frame buffer driver, is capped at the file's length. -/
def capping (exclusive : Bool) : DispatchTable where
  exclusive
  seekable := some fun _ => true
  write := some fun _ fcb offset mdl _ =>
    let size := min mdl.byteCount (fcb.fileLength - offset)
    ({ fcb with stored := writeAt fcb.stored offset (mdl.data size) }, ⟨.success, size⟩, .success)
  resize := some fun fcb n => ({ fcb with fileLength := n }, .success)
  touch := none

theorem capping_conforms (exc : Bool) : (capping exc).Conforms where
  seekable _ := rfl
  implemented := rfl
  write iosb fcb mdl flags offset hft _ := by
    have hsize : min mdl.byteCount (fcb.fileLength - offset) = mdl.byteCount := by omega
    refine ⟨hsize, rfl, ?_⟩
    simp only [capping, iopWriteFileLocked, hsize]
    exact readAt_writeAt_self _ _ (Mdl.length_data ..)
  resize _ _ := ⟨rfl, rfl⟩
  touch _ := ⟨rfl, rfl⟩

/-- Every wait ends well and every window can be mapped. -/
def smooth : Outcomes := ⟨.success, .success, .success, fun _ => some 0⟩

/-- Without an extension the call succeeds with fewer bytes than asked for, or leaves the file too
short. -/
theorem not_stores_capping (exc : Bool) (s : Files F) (iosb : Iosb) (place : Nat) (cac : Bool)
    (hsm : offset + mdl.byteCount < wordSize)
    (hlc : (capping exc).lockForWrite smooth (s.fcb f) (flags &&& ~~~ioRwLockedExclusive)
      offset (offset + mdl.byteCount) true
        = .ok ⟨s.fcb f, flags &&& ~~~ioRwLockedExclusive ||| ioRwLockedExclusive, place, .success⟩)
    (hp : place < (s.fcb f).fileLength → place = offset)
    (hln : (s.fcb f).fileLength < place + mdl.byteCount) :
    ((capping exc).iopWriteFile2 smooth s iosb f mdl flags offset cac).status = .success ∧
      ¬ Stores ((capping exc).iopWriteFile2 smooth s iosb f mdl flags offset cac) f mdl
        cac (s.fcb f).fileLength place := by
  rw [(capping exc).iopWriteFile2_eq (capping_conforms exc) smooth s iosb f flags cac hsm, hlc]
  simp only
  split
  · refine ⟨rfl, fun h => ?_⟩
    obtain ⟨hb, hlength, -⟩ := h
    simp only [setFcb, update_self] at hb hlength
    omega
  · next he =>
      have hc : (if addW mdl.byteCount place ≥ (s.fcb f).fileLength
          then (s.fcb f).fileLength - place else mdl.byteCount) = (s.fcb f).fileLength - place := by
        rw [addW_of_lt (by omega), if_pos (by omega)]
      rw [hc]
      cases cac with
      | true =>
        have hok := Files.writeViews_success
          (show ∀ k, (smooth.space k).isSome from fun _ => rfl) f mdl ((s.fcb f).fileLength - place)
          (setFcb s f (s.fcb f)) place 0 ((s.fcb f).fileLength - place)
        unfold transfer
        refine ⟨hok, fun h => ?_⟩
        have hb := h.1
        simp only [if_true, Files.ccWriteFileMdl, hok] at hb
        omega
      | false =>
        refine ⟨rfl, fun h => ?_⟩
        have hb : min mdl.byteCount ((s.fcb f).fileLength - place) = mdl.byteCount := h.1
        omega

theorem not_storesAll_capping {exc : Bool} {c : WriteCall F}
    (h : ¬ Extends exc (s.fcb c.file).fileLength c) : ¬ (capping exc).StoresAll s c := by
  intro ha
  unfold Extends at h
  obtain ⟨hsm, hh⟩ := not_or.1 h
  replace hsm : c.startOffset + c.mdl.byteCount < wordSize := by omega
  replace ha := ha smooth ⟨.success, 0⟩
  rw [(capping exc).iopWriteFile_eq (.inl rfl)] at ha
  unfold WriteCall.place at ha
  by_cases hp : c.flags &&& ioRwAppend = 0
  · rw [if_neg (not_not.2 hp)] at hh ha
    obtain ⟨rfl, hln⟩ := Classical.not_imp.1 hh
    have hls := not_stores_capping true s ⟨.success, 0⟩ c.startOffset c.cached hsm
      (by rw [lockForWrite, masked_and_append, if_neg (not_not.2 hp)]; rfl)
      (fun _ => rfl) (Nat.lt_of_not_le hln)
    exact hls.2 (ha hls.1)
  · rw [if_pos hp] at hh ha
    have hls := not_stores_capping exc s ⟨.success, 0⟩ (s.fcb c.file).fileLength c.cached hsm
      (by rw [lockForWrite, masked_and_append, if_pos hp]; rfl)
      (fun h => absurd h (Nat.lt_irrefl _)) (Nat.lt_add_of_pos_right (Nat.pos_of_ne_zero hh))
    exact hls.2 (ha hls.1)

/-- For a file of any length and any call, every driver that keeps its promises gets the whole
buffer stored by every successful write exactly when the file already reaches past the written
range or the code extends it: unless the range wraps around, the write is no append of any bytes,
and under `DISPATCH_FLAG_EXCLUSIVE` it ends within the file. -/
theorem write_stored_iff (s : Files F) (c : WriteCall F) (exclusive : Bool) :
    (∀ d : DispatchTable, d.Conforms → d.exclusive = exclusive → d.StoresAll s c) ↔
      Extends exclusive (s.fcb c.file).fileLength c := by
  constructor
  · intro ha
    by_contra h
    exact not_storesAll_capping h (ha _ (capping_conforms exclusive) rfl)
  · rintro h d hd rfl
    exact d.storesAll_of_extends hd h

/-- One file of five bytes, all zero, with no views. -/
def fiveBytes : Files Unit := ⟨fun _ => ⟨5, fun _ => 0, fun _ => 0⟩, fun _ => [], []⟩

/-- An append of one byte with the value one. -/
def appendOne (cached : Bool) : WriteCall Unit where
  file := ()
  currentFileOffset := 0
  mdl := ⟨0, 1, fun _ _ => 1⟩
  flags := ioRwAppend
  offset := 0
  cached
  currentFileOffset_lt := by decide
  byteCount_lt := by decide
  offset_lt := by decide

/-- Appending one byte succeeds, writes no byte and leaves the file as it is, cached or not. -/
theorem append_writes_nothing : (capping false).Conforms ∧ ∀ cached : Bool,
      ((capping false).iopWriteFile smooth fiveBytes ⟨.success, 0⟩ (appendOne cached)).1.status
        = .success ∧
      ((capping false).iopWriteFile smooth fiveBytes ⟨.success, 0⟩ (appendOne cached)).1.iosb.information
        = 0 ∧
      ¬ (capping false).StoresAll fiveBytes (appendOne cached) := by
  have hrn : ∀ cached : Bool,
      ((capping false).iopWriteFile smooth fiveBytes ⟨.success, 0⟩ (appendOne cached)).1.status
        = .success ∧
      ((capping false).iopWriteFile smooth fiveBytes ⟨.success, 0⟩ (appendOne cached)).1.iosb.information
        = 0 := by
    decide +kernel
  refine ⟨capping_conforms false, fun cached => ⟨(hrn cached).1, (hrn cached).2, fun ha => ?_⟩⟩
  have hb := (ha smooth ⟨.success, 0⟩ (hrn cached).1).1
  rw [(hrn cached).2] at hb
  cases hb

end DispatchTable

end Boron.Io
