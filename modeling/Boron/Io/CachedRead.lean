import Boron.Io.RdWr

/-! # Cached reads (`io/rdwr.c`, `cc/vcache.c`)

`IopReadFile2` cuts the byte count down to what the file has from the offset on and reports that many
bytes. The driver is told of the buffer alone, and the view cache is handed the byte count of the
buffer, not the one that was cut down: what lies past the end of the file goes into the buffer as well
(`cached_read_iff`). -/

namespace Boron.Cc.Files

open Boron.Io (Mdl)

variable {F : Type} [DecidableEq F]

/-- The loop of `CcReadFileMdl`. -/
def readViews (space : Nat → Option Nat) (f : F) :
    (fuel : Nat) → Files F → Mdl → (fileOffset mdlOffset size : Nat) → Files F × Mdl × BStatus
  | 0, s, mdl, _, _, _ => (s, mdl, .success)
  | fuel + 1, s, mdl, fileOffset, mdlOffset, size =>
    if size = 0 then (s, mdl, .success)
    else
      let viewOffset := fileOffset % viewCacheSize
      let bytesTillNext := viewCacheSize - viewOffset
      let copyAmount := if size < bytesTillNext then size else bytesTillNext
      match s.cciGetViewOfFile (space (fileOffset / viewCacheSize)) f fileOffset with
      | (s, none) => (s, mdl, .insufficientMemory)
      | (s, some view) =>
        let source := readAt (s.fcb f).mapped (view.sectionOffset + viewOffset) copyAmount
        readViews space f fuel s (mdl.mmCopyIntoMdl mdlOffset source)
          (fileOffset + copyAmount) (mdlOffset + copyAmount) (size - copyAmount)

def ccReadFileMdl (s : Files F) (space : Nat → Option Nat) (f : F) (fileOffset : Nat) (mdl : Mdl)
    (mdlOffset byteCount : Nat) : Files F × Mdl × BStatus :=
  readViews space f byteCount s mdl fileOffset mdlOffset byteCount

variable {space : Nat → Option Nat}

/-- A loop that succeeds has made one contiguous copy. -/
theorem readViews_spec {f : F} {fuel size : Nat} (hfl : size ≤ fuel) (s : Files F) (mdl : Mdl) (fo mo : Nat)
    (hok : (readViews space f fuel s mdl fo mo size).2.2 = .success) :
    (readViews space f fuel s mdl fo mo size).2.1.byteAt = writeAt mdl.byteAt (mdl.byteOffset + mo)
          (readAt (s.fcb f).mapped fo size) := by
  induction fuel generalizing s mdl fo mo size with
  | zero =>
    obtain rfl := Nat.le_zero.1 hfl
    exact (writeAt_nil ..).symm
  | succ fuel ih =>
    simp only [readViews] at hok ⊢
    by_cases hz : size = 0
    · rw [if_pos hz, hz]
      exact (writeAt_nil ..).symm
    · rw [if_neg hz] at hok ⊢
      generalize hn : (if size < viewCacheSize - fo % viewCacheSize then size
        else viewCacheSize - fo % viewCacheSize) = n at hok ⊢
      have hb := chunk_bounds (by omega) hn
      obtain ⟨hfcb, hy⟩ :=
        s.cciGetViewOfFile_spec (space (fo / viewCacheSize)) f fo
      match hgt : s.cciGetViewOfFile (space (fo / viewCacheSize)) f fo with
      | (s', none) =>
        rw [hgt] at hok
        cases hok
      | (s', some view) =>
        rw [hgt] at hok hfcb hy
        simp only at hok hfcb ⊢
        rw [View.sectionOffset_add (hy view rfl), hfcb] at hok ⊢
        obtain ⟨m, rfl⟩ := Nat.exists_eq_add_of_le hb.2
        rw [Nat.add_sub_cancel_left] at hok ⊢
        -- the piece goes to its own place in the buffer, and the rest right behind it
        rw [ih (by omega) _ _ _ _ hok, hfcb, Mdl.byteAt_mmCopyIntoMdl,
          Mdl.byteOffset_mmCopyIntoMdl, readAt_add]
        have ha := writeAt_append mdl.byteAt (mdl.byteOffset + mo)
          (readAt (s.fcb f).mapped fo n) (readAt (s.fcb f).mapped (fo + n) m)
        rw [length_readAt] at ha
        rw [← ha, Nat.add_assoc]

/-- With room for its views the loop succeeds. -/
theorem readViews_success (h : ∀ k, (space k).isSome) (f : F)
    (fuel : Nat) (s : Files F) (mdl : Mdl) (fo mo size : Nat) :
    (readViews space f fuel s mdl fo mo size).2.2 = .success := by
  induction fuel generalizing s mdl fo mo size with
  | zero => rfl
  | succ fuel ih =>
    simp only [readViews]
    by_cases hz : size = 0
    · rw [if_pos hz]
    · rw [if_neg hz]
      have hw := s.cciGetViewOfFile_isSome (h (fo / viewCacheSize)) f fo
      match hgt : s.cciGetViewOfFile (space (fo / viewCacheSize)) f fo with
      | (s', none) =>
        rw [hgt] at hw
        cases hw
      | (s', some view) => exact ih ..

end Boron.Cc.Files

namespace Boron.Io

open Boron.Cc (BStatus Fcb Files)

/-- The part of an `IO_DISPATCH_TABLE` that reading uses. -/
structure ReadDispatch extends DispatchTable where
  read : Option (Iosb → Fcb → Nat → Mdl → BitVec 32 → Fcb × Mdl × Iosb × BStatus)

/-- What a call leaves; `outFileSize` is `none` where `*OutFileSize` is not set. -/
structure ReadResult (F : Type) where
  files : Files F
  mdl : Mdl
  iosb : Iosb
  status : BStatus
  outFileSize : Option Nat

namespace ReadDispatch

variable (d : ReadDispatch)

def iopReadFileLocked (iosb : Iosb) (fcb : Fcb) (mdl : Mdl) (flags : BitVec 32) (offset : Nat) :
    Fcb × Mdl × Iosb × BStatus :=
  match d.read with
  | none => (fcb, mdl, { iosb with status := .unsupportedFunction }, .unsupportedFunction)
  | some read => read iosb fcb offset mdl flags

variable {F : Type} [DecidableEq F]

/-- The part of `IopReadFile2` that reads from the driver. -/
def readFromDriver (e : Outcomes) (s : Files F) (iosb : Iosb) (f : F) (mdl : Mdl)
    (flags : BitVec 32) (offset outFileSize : Nat) : ReadResult F :=
  let flags := flags &&& ~~~ioRwLockedExclusive
  let flags := if d.exclusive then flags ||| ioRwLockedExclusive else flags
  let status := if d.exclusive then e.lockExclusive else e.lockShared
  if status ≠ .success then ⟨s, mdl, { iosb with status }, status, some outFileSize⟩
  else
    let (fcb, mdl, iosb, status) := d.iopReadFileLocked iosb (s.fcb f) mdl flags offset
    let outFileSize := fcb.fileLength
    let fcb := if status = .success then (d.iopTouchFile fcb false).1 else fcb
    ⟨DispatchTable.setFcb s f fcb, mdl, iosb, status, some outFileSize⟩

/-- The part of `IopReadFile2` that reads through the view cache; `byteCount` is the byte count cut
down. -/
def readFromCache (e : Outcomes) (s : Files F) (iosb : Iosb) (f : F) (mdl : Mdl)
    (offset byteCount outFileSize : Nat) : ReadResult F :=
  let (s, mdl', status) := s.ccReadFileMdl e.space f offset mdl 0 mdl.byteCount
  let information := if status = .success then byteCount else iosb.information
  ⟨s, mdl', ⟨status, information⟩, status, some outFileSize⟩

def iopReadFile2 (e : Outcomes) (s : Files F) (iosb : Iosb) (f : F) (mdl : Mdl)
    (flags : BitVec 32) (offset : Nat) (cached : Bool) : ReadResult F :=
  let iosb : Iosb := { iosb with information := 0 }
  let byteCount := mdl.byteCount
  if addW byteCount offset < byteCount ∨ addW byteCount offset < offset then
    ⟨s, mdl, iosb, .invalidParameter, none⟩
  else if d.ioIsSeekable (s.fcb f) then
    let fileSize := (s.fcb f).fileLength
    if offset ≥ fileSize then ⟨s, mdl, ⟨.success, 0⟩, .success, some fileSize⟩
    else
      let byteCount := if addW byteCount offset ≥ fileSize then fileSize - offset else byteCount
      if cached then readFromCache e s iosb f mdl offset byteCount fileSize
      else d.readFromDriver e s iosb f mdl flags offset fileSize
  else d.readFromDriver e s iosb f mdl flags offset 0

/-! ## What is asked of a cached read -/

end ReadDispatch

/-- A cached read: everything but what the buffer holds. Every number is one that fits a 64-bit
word. -/
structure ReadCall (F : Type) where
  file : F
  byteOffset : Nat
  byteCount : Nat
  flags : BitVec 32
  offset : Nat
  byteCount_lt : byteCount < wordSize
  offset_lt : offset < wordSize

/-- How many bytes a file of this length has for the call. -/
def ReadCall.available {F : Type} (c : ReadCall F) (fileLength : Nat) : Nat :=
  min (c.offset + c.byteCount) fileLength - c.offset

/-- The read succeeds with the file's bytes in the first part of the buffer, with the number of these
bytes, and with everything else as it was. -/
structure ReadCall.Delivers {F : Type} (c : ReadCall F) (fcb : Fcb) (mdl : Mdl) (r : ReadResult F) :
    Prop where
  bytesRead : r.iosb.information = c.available fcb.fileLength
  buffer : r.mdl.byteAt
    = writeAt mdl.byteAt mdl.byteOffset (readAt fcb.mapped c.offset (c.available fcb.fileLength))

/-- The file ends before the call's offset or not before its end, or the call is refused. -/
def ReadCall.Within {F : Type} (c : ReadCall F) (fileLength : Nat) : Prop :=
  wordSize ≤ c.offset + c.byteCount ∨ fileLength ≤ c.offset ∨ c.offset + c.byteCount ≤ fileLength

namespace ReadDispatch

variable (d : ReadDispatch) {F : Type} [DecidableEq F]

/-- Whatever the buffer holds and however the mapping of views ends, a read that succeeds delivers. -/
def ReadsRight (s : Files F) (c : ReadCall F) : Prop :=
  ∀ e iosb (page : Nat → Nat → Byte), let mdl : Mdl := ⟨c.byteOffset, c.byteCount, page⟩
    (d.iopReadFile2 e s iosb c.file mdl c.flags c.offset true).status = .success →
      c.Delivers (s.fcb c.file) mdl (d.iopReadFile2 e s iosb c.file mdl c.flags c.offset true)

variable {e : Outcomes} {s : Files F} {iosb : Iosb} {f : F} {mdl : Mdl}

theorem iopReadFile2_cached {offset : Nat} (flags : BitVec 32) (hsk : d.ioIsSeekable (s.fcb f) = true)
    (hsm : offset + mdl.byteCount < wordSize) (hof : offset < (s.fcb f).fileLength) :
    d.iopReadFile2 e s iosb f mdl flags offset true
      = readFromCache e s { iosb with information := 0 } f mdl offset
          (min (offset + mdl.byteCount) (s.fcb f).fileLength - offset) (s.fcb f).fileLength := by
  have hov : ¬ (addW mdl.byteCount offset < mdl.byteCount ∨ addW mdl.byteCount offset < offset) := by
    rw [DispatchTable.overflow_iff (by omega) (by omega)]
    omega
  have hcount : (if addW mdl.byteCount offset ≥ (s.fcb f).fileLength then
      (s.fcb f).fileLength - offset else mdl.byteCount)
      = min (offset + mdl.byteCount) (s.fcb f).fileLength - offset := by
    rw [addW_of_lt (by omega)]
    split <;> omega
  unfold iopReadFile2
  simp only [if_neg hov, hsk, if_true, if_neg (Nat.not_le.2 hof), hcount]

theorem readFromCache_buffer {off bc fs : Nat}
    (hok : (readFromCache e s iosb f mdl off bc fs).status = .success) :
    (readFromCache e s iosb f mdl off bc fs).iosb.information = bc ∧
      (readFromCache e s iosb f mdl off bc fs).mdl.byteAt
        = writeAt mdl.byteAt mdl.byteOffset (readAt (s.fcb f).mapped off mdl.byteCount) := by
  refine ⟨if_pos hok, ?_⟩
  exact Files.readViews_spec (Nat.le_refl _) s mdl off 0 hok

/-- What is stored behind the end of the file is not what a buffer holds that has something else
there. -/
theorem exists_not_delivers (s : Files F) (c : ReadCall F)
    (hp : (s.fcb c.file).fileLength < c.offset + c.byteCount)
    (hof : c.offset < (s.fcb c.file).fileLength) : ∃ e, ∃ iosb : Iosb, ∃ page r,
      r = readFromCache e s { iosb with information := 0 } c.file ⟨c.byteOffset, c.byteCount, page⟩
        c.offset (c.available (s.fcb c.file).fileLength) (s.fcb c.file).fileLength ∧
      r.status = .success ∧ ¬ c.Delivers (s.fcb c.file) ⟨c.byteOffset, c.byteCount, page⟩ r := by
  obtain ⟨x, hx⟩ : ∃ x : Byte, x ≠ (s.fcb c.file).mapped (s.fcb c.file).fileLength := by
    by_cases hz : (s.fcb c.file).mapped (s.fcb c.file).fileLength = 0
    · exact ⟨1, hz ▸ by decide⟩
    · exact ⟨0, fun h => hz h.symm⟩
  refine ⟨⟨.success, .success, .success, fun _ => some 0⟩, ⟨.success, 0⟩, fun _ _ => x, _, rfl,
    Files.readViews_success (fun _ => rfl) .., fun h => ?_⟩
  have hb := h.buffer
  rw [(readFromCache_buffer (Files.readViews_success (fun _ => rfl) ..)).2] at hb
  generalize hlength : (s.fcb c.file).fileLength = length at *
  have hy := congrFun hb (c.byteOffset + (length - c.offset))
  have hin : length - c.offset < (readAt (s.fcb c.file).mapped c.offset c.byteCount).length := by
    rw [length_readAt]
    omega
  have he : c.available length = length - c.offset := by
    unfold ReadCall.available
    omega
  rw [writeAt_apply_of_lt hin, getElem_readAt, writeAt_apply_of_outside (.inr (by
    rw [length_readAt, he])), Nat.add_sub_cancel' hof.le] at hy
  exact hx hy.symm

/-- **A cached read is right just if it stays within the file**, ends where the file does, starts behind
its end or is refused. -/
theorem cached_read_iff (s : Files F) (c : ReadCall F) (hseek : d.ioIsSeekable (s.fcb c.file) = true) :
    d.ReadsRight s c ↔ c.Within (s.fcb c.file).fileLength := by
  by_cases hsm : wordSize ≤ c.offset + c.byteCount
  · refine iff_of_true (fun e iosb page => ?_) (.inl hsm)
    have hov := (DispatchTable.overflow_iff c.byteCount_lt c.offset_lt).2 (by omega)
    unfold iopReadFile2
    simp only [if_pos hov]
    exact fun h => by cases h
  · by_cases hof : (s.fcb c.file).fileLength ≤ c.offset
    · refine iff_of_true (fun e iosb page _ => ?_) (.inr (.inl hof))
      have hov := (DispatchTable.overflow_iff c.byteCount_lt c.offset_lt).not.2 (by omega)
      have hnn : c.available (s.fcb c.file).fileLength = 0 := by
        unfold ReadCall.available
        omega
      unfold iopReadFile2
      simp only [if_neg hov, hseek, if_true, ge_iff_le, if_pos hof]
      refine ⟨hnn.symm, ?_⟩
      rw [hnn]
      exact (writeAt_nil ..).symm
    · have hw : ∀ e iosb page, d.iopReadFile2 e s iosb c.file ⟨c.byteOffset, c.byteCount, page⟩
          c.flags c.offset true = readFromCache e s { iosb with information := 0 } c.file
            ⟨c.byteOffset, c.byteCount, page⟩ c.offset (c.available (s.fcb c.file).fileLength)
            (s.fcb c.file).fileLength :=
        fun e iosb page => d.iopReadFile2_cached c.flags hseek (Nat.not_le.1 hsm) (Nat.not_le.1 hof)
      constructor
      · intro h
        by_contra hot
        have hp : (s.fcb c.file).fileLength < c.offset + c.byteCount := by
          unfold ReadCall.Within at hot
          omega
        obtain ⟨e, iosb, page, r, rfl, hok, hwr⟩ := exists_not_delivers s c hp (by omega)
        have hrg := h e iosb page
        simp only [hw] at hrg
        exact hwr (hrg hok)
      · rintro (h | h | h) e iosb page mdl hok
        · exact absurd h hsm
        · exact absurd h hof
        · have ha : c.available (s.fcb c.file).fileLength = c.byteCount := by
            unfold ReadCall.available
            omega
          rw [hw] at hok ⊢
          obtain ⟨hin, hb⟩ := readFromCache_buffer hok
          exact ⟨hin, by rw [hb, ha]⟩

/-- A file of ten bytes that counts up. -/
def tenBytes : Files Unit where
  fcb _ := ⟨10, fun i => .ofNat i, fun i => .ofNat i⟩
  viewCache _ := []
  viewCacheLru := []

/-- A driver that supports nothing but the test for a seekable file. -/
def seekableOnly : ReadDispatch := ⟨⟨false, some fun _ => true, none, none, none⟩, none⟩

/-- Four bytes from the third on, to the end of a page. -/
theorem cached_read_ten : seekableOnly.ReadsRight tenBytes ⟨(), 4094, 4, 0, 2, by decide, by decide⟩ :=
  (cached_read_iff seekableOnly tenBytes ⟨(), 4094, 4, 0, 2, by decide, by decide⟩ rfl).2
    (.inr (.inr (by decide)))

/-- Two bytes from the last one on: the byte behind the file is stored too. -/
theorem cached_read_past_end :
    ¬ ∀ (s : Files Unit) (c : ReadCall Unit), seekableOnly.ReadsRight s c := by
  intro h
  have hrg := h tenBytes ⟨(), 0, 2, 0, 9, by decide, by decide⟩
    ⟨.success, .success, .success, fun _ => some 0⟩ ⟨.success, 0⟩ (fun _ _ => 0) (by decide +kernel)
  have hb := congrFun hrg.buffer 1
  exact absurd hb (by decide +kernel)

end ReadDispatch

end Boron.Io
