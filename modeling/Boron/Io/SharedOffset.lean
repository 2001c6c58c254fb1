import Boron.Lib.Run
import Boron.Io.CachedRead

/-! # The offset that the users of a file object share (`io/rdwr.c`)

With `IO_RW_SHARED_FILE_OFFSET` a read or a write starts at `CurrentFileOffset` and moves it on by the
byte count of its status block; `IoSeekFile` sets it. All of them hold `FileOffsetMutex`. A write to a
file without a `Write` method never sets the byte count, and a transfer through the view cache that
runs out of views reports none of the bytes it has copied. A seek adds in 64 bits, lets directories be
positioned anywhere with `IO_SEEK_SET`, and `OSSeekFile` succeeds whatever became of it.
`sharedOffset_right_iff` says exactly which steps of a run do what they should. -/

open Option

namespace Boron.Cc.Files

open Boron.Io (Mdl)

variable {F : Type} [DecidableEq F]

/-! ## Copies that run out of views -/

/-- How many bytes the loops of `CcReadFileMdl` and `CcWriteFileMdl` copy before they are done or run
out of views. -/
def copiedViews (space : Nat → Option Nat) (f : F) :
    (fuel : Nat) → Files F → (fileOffset size : Nat) → Nat
  | 0, _, _, _ => 0
  | fuel + 1, s, fileOffset, size =>
    if size = 0 then 0
    else
      let bytesTillNext := viewCacheSize - fileOffset % viewCacheSize
      let copyAmount := if size < bytesTillNext then size else bytesTillNext
      match s.cciGetViewOfFile (space (fileOffset / viewCacheSize)) f fileOffset with
      | (_, none) => 0
      | (s, some _) =>
        copyAmount + copiedViews space f fuel s (fileOffset + copyAmount) (size - copyAmount)

/-- The bytes that a call of `CcReadFileMdl` or `CcWriteFileMdl` copies. -/
def ccCopied (s : Files F) (space : Nat → Option Nat) (f : F) (fileOffset byteCount : Nat) : Nat :=
  copiedViews space f byteCount s fileOffset byteCount

theorem purgeViews_fcb (limit fuel : Nat) (s : Files F) (fcb : F → Fcb) :
    purgeViews limit fuel { s with fcb } = { purgeViews limit fuel s with fcb } := by
  induction fuel generalizing s with
  | zero => rfl
  | succ fuel ih =>
    obtain ⟨fcb', vc, lru⟩ := s
    simp only [purgeViews]
    by_cases hlm : limit < lru.length
    · rw [if_pos hlm, if_pos hlm]
      cases lru with
      | nil => rfl
      | cons v rest =>
        exact ih ((⟨fcb', vc, v :: rest⟩ : Files F).mmUnmapViewOfFileInSystemSpace v)
    · rw [if_neg hlm, if_neg hlm]

theorem cciGetViewOfFile_fcb (s : Files F) (fcb : F → Fcb) (space : Option Nat) (f : F) (fo : Nat) :
    ({ s with fcb } : Files F).cciGetViewOfFile space f fo
      = ({ (s.cciGetViewOfFile space f fo).1 with fcb }, (s.cciGetViewOfFile space f fo).2) := by
  unfold cciGetViewOfFile
  cases (s.viewCache f).find? fun v => decide (v.key = fo / viewCacheSize) with
  | some v => rfl
  | none =>
    unfold mmMapViewOfFileInSystemSpace ccPurgeViewsOverLimit
    rw [purgeViews_fcb]
    cases space <;> rfl

theorem copiedViews_fcb (space : Nat → Option Nat) (f : F) (fuel : Nat) (s : Files F)
    (fcb : F → Fcb) (fo size : Nat) :
    copiedViews space f fuel { s with fcb } fo size = copiedViews space f fuel s fo size := by
  induction fuel generalizing s fo size with
  | zero => rfl
  | succ fuel ih =>
    simp only [copiedViews]
    by_cases hz : size = 0
    · rw [if_pos hz, if_pos hz]
    · rw [if_neg hz, if_neg hz, cciGetViewOfFile_fcb]
      cases hgt : s.cciGetViewOfFile (space (fo / viewCacheSize)) f fo with
      | mk s' view =>
        cases view with
        | none => rfl
        | some view =>
          dsimp only
          rw [ih s']

variable {space : Nat → Option Nat} {fuel size : Nat}

/-- A read through the cache copies everything or fails. -/
theorem readViews_success_iff {f : F} (hfl : size ≤ fuel) (s : Files F) (mdl : Mdl) (fo mo : Nat) :
    (readViews space f fuel s mdl fo mo size).2.2 = .success ↔
      copiedViews space f fuel s fo size = size := by
  induction fuel generalizing s mdl fo mo size with
  | zero => exact iff_of_true rfl (Nat.le_zero.1 hfl).symm
  | succ fuel ih =>
    simp only [readViews, copiedViews]
    by_cases hz : size = 0
    · rw [if_pos hz, if_pos hz]
      exact iff_of_true rfl hz.symm
    · rw [if_neg hz, if_neg hz]
      generalize hn : (if size < viewCacheSize - fo % viewCacheSize then size
        else viewCacheSize - fo % viewCacheSize) = n
      have hb := chunk_bounds (by omega) hn
      cases s.cciGetViewOfFile (space (fo / viewCacheSize)) f fo with
      | mk s' view =>
        cases view with
        | none => exact iff_of_false BStatus.noConfusion (Ne.symm hz)
        | some view =>
          dsimp only
          rw [ih (by omega)]
          omega

theorem writeViews_success_iff {f : F} (hfl : size ≤ fuel) (s : Files F) (mdl : Mdl) (fo mo : Nat) :
    (writeViews space f mdl fuel s fo mo size).2 = .success ↔
      copiedViews space f fuel s fo size = size := by
  induction fuel generalizing s fo mo size with
  | zero => exact iff_of_true rfl (Nat.le_zero.1 hfl).symm
  | succ fuel ih =>
    simp only [writeViews, copiedViews]
    by_cases hz : size = 0
    · rw [if_pos hz, if_pos hz]
      exact iff_of_true rfl hz.symm
    · rw [if_neg hz, if_neg hz]
      generalize hn : (if size < viewCacheSize - fo % viewCacheSize then size
        else viewCacheSize - fo % viewCacheSize) = n
      have hb := chunk_bounds (by omega) hn
      cases s.cciGetViewOfFile (space (fo / viewCacheSize)) f fo with
      | mk s' view =>
        cases view with
        | none => exact iff_of_false BStatus.noConfusion (Ne.symm hz)
        | some view =>
          dsimp only
          rw [ih (by omega)]
          unfold storeInView
          rw [copiedViews_fcb]
          omega

end Boron.Cc.Files

namespace Boron.Io

open Boron.Cc (BStatus Fcb Files)

/-! ## Reads and writes -/

/-- A read or a write with `IO_RW_SHARED_FILE_OFFSET`. -/
structure SharedCall where
  isWrite : Bool
  mdl : Mdl
  flags : BitVec 32
  cached : Bool

namespace ReadDispatch

variable {F : Type} [DecidableEq F] (d : ReadDispatch)

/-- `IopReadFile2` or `IopWriteFile2`, with what becomes of the status block. -/
def iopTransfer (e : Outcomes) (s : Files F) (iosb : Iosb) (f : F) (c : SharedCall) (offset : Nat) :
    Files F × Iosb :=
  if c.isWrite then
    let r := d.iopWriteFile2 e s iosb f c.mdl c.flags offset c.cached
    (r.files, r.iosb)
  else
    let r := d.iopReadFile2 e s iosb f c.mdl c.flags offset c.cached
    (r.files, r.iosb)

/-- How a read or write reaches its bytes. -/
inductive Way
  | none
  | views (start size available : Nat)
  | driver (reported : Nat)

/-- The bytes that are transferred on a way: those copied through the views that belong to the file, or
those that the driver says it has transferred. -/
def Way.count (s : Files F) (e : Outcomes) (f : F) : Way → Nat
  | .none => 0
  | .views start size available => min (s.ccCopied e.space f start size) available
  | .driver reported => reported

/-- A copy through the views does not run out of them after its first piece. -/
def Way.Lasts (s : Files F) (e : Outcomes) (f : F) : Way → Prop
  | .views start size _ =>
    s.ccCopied e.space f start size = 0 ∨ s.ccCopied e.space f start size = size
  | _ => True

/-- The way of a read: there is none past the end of the file or of the address range, or without the
lock. -/
def readWay (e : Outcomes) (s : Files F) (iosb : Iosb) (f : F) (c : SharedCall) (offset : Nat) : Way :=
  if wordSize ≤ offset + c.mdl.byteCount then .none
  else if d.ioIsSeekable (s.fcb f) ∧ (s.fcb f).fileLength ≤ offset then .none
  else if d.ioIsSeekable (s.fcb f) ∧ c.cached then
    .views offset c.mdl.byteCount ((s.fcb f).fileLength - offset)
  else if (if d.exclusive then e.lockExclusive else e.lockShared) ≠ .success then .none
  else
    let flags := c.flags &&& ~~~ioRwLockedExclusive
    .driver (d.iopReadFileLocked { iosb with information := 0 } (s.fcb f) c.mdl
      (if d.exclusive then flags ||| ioRwLockedExclusive else flags) offset).2.2.1.information

/-- The way of a write: there also is none without a `Write` method, or if the file cannot be made
longer and the write does not go through its views. -/
def writeWay (e : Outcomes) (s : Files F) (iosb : Iosb) (f : F) (c : SharedCall) (offset : Nat) : Way :=
  if d.write.isNone ∨ wordSize ≤ offset + c.mdl.byteCount then .none
  else
    match d.lockForWrite e (s.fcb f) (c.flags &&& ~~~ioRwLockedExclusive) offset
      (offset + c.mdl.byteCount) (d.ioIsSeekable (s.fcb f)) with
    | .error _ => .none
    | .ok l =>
      if d.ioIsSeekable (s.fcb f) ∧ l.fcb.fileLength ≤ l.offset then .none
      else if d.ioIsSeekable (s.fcb f) ∧ c.cached then
        .views l.offset (min c.mdl.byteCount (l.fcb.fileLength - l.offset))
          (l.fcb.fileLength - l.offset)
      else if l.status ≠ .success then .none
      else .driver (d.iopWriteFileLocked { iosb with information := 0 } l.fcb c.mdl l.flags
        l.offset).2.1.information

def way (e : Outcomes) (s : Files F) (iosb : Iosb) (f : F) (c : SharedCall) (offset : Nat) : Way :=
  if c.isWrite then d.writeWay e s iosb f c offset else d.readWay e s iosb f c offset

/-- A write to a file that cannot be written. -/
def Unwritable (c : SharedCall) : Prop := c.isWrite = true ∧ d.write = none

instance (c : SharedCall) : Decidable (d.Unwritable c) :=
  decidable_of_iff (c.isWrite = true ∧ d.write.isNone = true) (by
    rw [Unwritable, isNone_iff_eq_none])

/-- A driver does not report more bytes than the buffer has, and none if it does not set the count. -/
structure Reports : Prop where
  read : ∀ iosb fcb mdl flags offset, iosb.information = 0 →
    (d.iopReadFileLocked iosb fcb mdl flags offset).2.2.1.information ≤ mdl.byteCount
  write : ∀ iosb fcb mdl flags offset, iosb.information = 0 →
    (d.iopWriteFileLocked iosb fcb mdl flags offset).2.1.information ≤ mdl.byteCount

variable {d} {e : Outcomes} {s : Files F} {iosb : Iosb} {f : F} {c : SharedCall} {offset : Nat}

/-- The byte count of a way's status block. -/
def Way.reported (s : Files F) (e : Outcomes) (f : F) : Way → Nat
  | .none => 0
  | .views start size available =>
    if s.ccCopied e.space f start size = size then min size available else 0
  | .driver reported => reported

/-- What a read through the views reports. -/
theorem readFromCache_information (start bc ofs : Nat) (hz : iosb.information = 0) :
    (readFromCache e s iosb f c.mdl start bc ofs).iosb.information
      = if s.ccCopied e.space f start c.mdl.byteCount = c.mdl.byteCount then bc else 0 := by
  unfold readFromCache Files.ccReadFileMdl
  rw [hz]
  exact if_congr (Files.readViews_success_iff (Nat.le_refl _) ..) rfl rfl

theorem read_reported (hof : offset < wordSize) (hcount : c.mdl.byteCount < wordSize) :
    (d.iopReadFile2 e s iosb f c.mdl c.flags offset c.cached).iosb.information
      = (d.readWay e s iosb f c offset).reported s e f := by
  have hov := DispatchTable.overflow_iff hcount hof
  rw [Nat.add_comm c.mdl.byteCount] at hov
  unfold iopReadFile2 readWay
  by_cases hsm : wordSize ≤ offset + c.mdl.byteCount
  · rw [if_pos (hov.2 hsm), if_pos hsm]
    rfl
  · rw [if_neg (mt hov.1 hsm), if_neg hsm, addW_of_lt (by omega)]
    have hdr : ∀ size, (d.readFromDriver e s { iosb with information := 0 } f c.mdl c.flags offset
        size).iosb.information = (if (if d.exclusive then e.lockExclusive else e.lockShared) ≠ .success
          then Way.none else .driver (d.iopReadFileLocked { iosb with information := 0 } (s.fcb f) c.mdl
            (if d.exclusive then c.flags &&& ~~~ioRwLockedExclusive ||| ioRwLockedExclusive
              else c.flags &&& ~~~ioRwLockedExclusive) offset).2.2.1.information).reported s e f := by
      intro size
      unfold readFromDriver
      by_cases hlc : (if d.exclusive = true then e.lockExclusive else e.lockShared) = .success
      · rw [if_neg (not_not.2 hlc), if_neg (not_not.2 hlc)]
        rfl
      · rw [if_pos hlc, if_pos hlc]
        rfl
    by_cases hsk : d.ioIsSeekable (s.fcb f) = true
    · rw [if_pos hsk]
      by_cases hp : (s.fcb f).fileLength ≤ offset
      · rw [if_pos hp, if_pos ⟨hsk, hp⟩]
        rfl
      · have hnt : ¬ (d.ioIsSeekable (s.fcb f) = true ∧ (s.fcb f).fileLength ≤ offset) :=
          fun h => hp h.2
        rw [if_neg hp, if_neg hnt]
        by_cases hc : c.cached = true
        · have hw : d.ioIsSeekable (s.fcb f) = true ∧ c.cached = true := ⟨hsk, hc⟩
          rw [if_pos hc, if_pos hw, readFromCache_information _ _ _ rfl]
          unfold Way.reported
          refine if_congr Iff.rfl ?_ rfl
          split
          · omega
          · omega
        · have hnt' : ¬ (d.ioIsSeekable (s.fcb f) = true ∧ c.cached = true) :=
            fun h => hc h.2
          rw [if_neg hc, if_neg hnt']
          exact hdr _
    · have hnt : ¬ (d.ioIsSeekable (s.fcb f) = true ∧ (s.fcb f).fileLength ≤ offset) :=
        fun h => hsk h.1
      have hnt' : ¬ (d.ioIsSeekable (s.fcb f) = true ∧ c.cached = true) := fun h => hsk h.1
      rw [if_neg hsk, if_neg hnt, if_neg hnt']
      exact hdr _

theorem transfer_information (l : Locked) (bc ofs : Nat) (cac : Bool) (hz : iosb.information = 0) :
    (d.transfer e s iosb f c.mdl l bc cac ofs).iosb.information = if cac = true then
          if s.ccCopied e.space f l.offset bc = bc then bc else 0
        else if l.status ≠ .success then 0
        else (d.iopWriteFileLocked iosb l.fcb c.mdl l.flags l.offset).2.1.information := by
  unfold DispatchTable.transfer
  by_cases hc : cac = true
  · rw [if_pos hc, if_pos hc]
    unfold Files.ccWriteFileMdl
    rw [hz]
    refine if_congr ?_ rfl rfl
    rw [Files.writeViews_success_iff (Nat.le_refl _), DispatchTable.setFcb, Files.copiedViews_fcb]
    rfl
  · rw [if_neg hc, if_neg hc]
    split
    · exact hz
    · rfl

theorem write_reported (hos : offset < wordSize) (hcount : c.mdl.byteCount < wordSize)
    (hwr : d.write ≠ none) :
    (d.iopWriteFile2 e s iosb f c.mdl c.flags offset c.cached).iosb.information
      = (d.writeWay e s iosb f c offset).reported s e f := by
  have hov := DispatchTable.overflow_iff hcount hos
  rw [Nat.add_comm c.mdl.byteCount] at hov
  have hnn : ¬ d.write.isNone = true := by
    rw [isNone_iff_eq_none]
    exact hwr
  unfold DispatchTable.iopWriteFile2 writeWay
  dsimp only
  rw [if_neg hnn]
  by_cases hsu : wordSize ≤ offset + c.mdl.byteCount
  · rw [if_pos (hov.2 hsu), if_pos (.inr hsu)]
    rfl
  · have hnt : ¬ (d.write.isNone = true ∨ wordSize ≤ offset + c.mdl.byteCount) := by
      rintro (h | h)
      · exact hnn h
      · exact hsu h
    have he : addW offset c.mdl.byteCount = offset + c.mdl.byteCount := addW_of_lt (by omega)
    have hov' : ¬ (addW c.mdl.byteCount offset < c.mdl.byteCount ∨
        addW c.mdl.byteCount offset < offset) := by
      rw [addW_of_lt (by omega)]
      omega
    rw [if_neg hov', if_neg hnt, he]
    cases hlc : d.lockForWrite e (s.fcb f) (c.flags &&& ~~~ioRwLockedExclusive) offset
        (offset + c.mdl.byteCount) (d.ioIsSeekable (s.fcb f)) with
    | error st => rfl
    | ok l =>
      dsimp only
      by_cases hsk : d.ioIsSeekable (s.fcb f) = true
      · rw [hsk] at hlc
        rw [if_pos hsk]
        by_cases hp : l.fcb.fileLength ≤ l.offset
        · rw [if_pos hp, if_pos ⟨hsk, hp⟩]
          rfl
        · -- only an append starts elsewhere, and that is at the end of the file
          have hsm : l.offset = offset := by
            rcases d.lockForWrite_ok hlc with ⟨-, hfcb, hof⟩ | ⟨-, hof, -⟩
            · rw [hfcb, hof] at hp
              exact absurd le_rfl hp
            · exact hof
          have hct : (if addW c.mdl.byteCount l.offset ≥ l.fcb.fileLength
              then l.fcb.fileLength - l.offset else c.mdl.byteCount)
              = min c.mdl.byteCount (l.fcb.fileLength - l.offset) := by
            rw [hsm, addW_of_lt (by omega)]
            split
            · omega
            · omega
          have hnt' : ¬ (d.ioIsSeekable (s.fcb f) = true ∧ l.fcb.fileLength ≤ l.offset) :=
            fun h => hp h.2
          rw [if_neg hp, if_neg hnt', transfer_information _ _ _ _ rfl, hct, hsk, Bool.true_and]
          by_cases hc : c.cached = true
          · have hw : true = true ∧ c.cached = true := ⟨rfl, hc⟩
            rw [if_pos hc, if_pos hw]
            unfold Way.reported
            exact if_congr Iff.rfl (min_eq_left (Nat.min_le_right ..)).symm rfl
          · have hnt'' : ¬ (true = true ∧ c.cached = true) := fun h => hc h.2
            rw [if_neg hc, if_neg hnt'']
            split
            · rfl
            · rfl
      · have hnt' : ¬ (d.ioIsSeekable (s.fcb f) = true ∧ l.fcb.fileLength ≤ l.offset) :=
          fun h => hsk h.1
        have hnt'' : ¬ (d.ioIsSeekable (s.fcb f) = true ∧ c.cached = true) :=
          fun h => hsk h.1
        have hc : ¬ (d.ioIsSeekable (s.fcb f) && c.cached) = true := by
          rw [Bool.and_eq_true]
          exact hnt''
        rw [if_neg hsk, if_neg hnt', if_neg hnt'', transfer_information _ _ _ _ rfl, if_neg hc]
        split
        · rfl
        · rfl

/-! ## What the two counts have in common -/

omit [DecidableEq F] in
theorem available_pos {start size available : Nat}
    (h : d.way e s iosb f c offset = .views start size available) : 0 < available := by
  unfold way readWay writeWay at h
  by_cases hw : c.isWrite = true
  · rw [if_pos hw] at h
    by_cases hov : d.write.isNone = true ∨ wordSize ≤ offset + c.mdl.byteCount
    · rw [if_pos hov] at h
      cases h
    · rw [if_neg hov] at h
      split at h
      · cases h
      · next l hlc =>
          by_cases hp : d.ioIsSeekable (s.fcb f) = true ∧ l.fcb.fileLength ≤ l.offset
          · rw [if_pos hp] at h
            cases h
          · rw [if_neg hp] at h
            by_cases hc : d.ioIsSeekable (s.fcb f) = true ∧ c.cached = true
            · rw [if_pos hc] at h
              cases h
              exact Nat.sub_pos_of_lt (Nat.not_le.1 fun hle => hp ⟨hc.1, hle⟩)
            · rw [if_neg hc] at h
              split at h
              · cases h
              · cases h
  · rw [if_neg hw] at h
    split at h
    · cases h
    · split at h
      · cases h
      · next hp =>
          split at h
          · next hc =>
              cases h
              exact Nat.sub_pos_of_lt (Nat.not_le.1 fun hle => hp ⟨hc.1, hle⟩)
          · by_cases hlc : (if d.exclusive = true then e.lockExclusive else e.lockShared) = .success
            · rw [if_neg (not_not.2 hlc)] at h
              cases h
            · rw [if_pos hlc] at h
              cases h

/-- A transfer reports what it has transferred exactly if it does not run out of views. -/
theorem reported_eq_count_iff :
    (d.way e s iosb f c offset).reported s e f = (d.way e s iosb f c offset).count s e f ↔
      (d.way e s iosb f c offset).Lasts s e f := by
  cases hw : d.way e s iosb f c offset with
  | none => exact iff_of_true rfl trivial
  | driver reported => exact iff_of_true rfl trivial
  | views start size available =>
    have hpos := available_pos hw
    simp only [Way.reported, Way.count, Way.Lasts]
    by_cases ha : s.ccCopied e.space f start size = size
    · rw [if_pos ha, ha]
      exact iff_of_true rfl (.inr rfl)
    · rw [if_neg ha]
      omega

/-- No more bytes are reported than the buffer has, and none at all for one that ends past the end of
the address range. -/
theorem reported_le (hd : d.Reports) : (d.way e s iosb f c offset).reported s e f ≤ c.mdl.byteCount ∧
      (wordSize ≤ offset + c.mdl.byteCount → (d.way e s iosb f c offset).reported s e f = 0) := by
  unfold way readWay writeWay
  by_cases hw : c.isWrite = true
  · rw [if_pos hw]
    by_cases hov : d.write.isNone = true ∨ wordSize ≤ offset + c.mdl.byteCount
    · rw [if_pos hov]
      exact ⟨Nat.zero_le _, fun _ => rfl⟩
    · rw [if_neg hov]
      refine ⟨?_, fun h => absurd (.inr h) hov⟩
      split
      · exact Nat.zero_le _
      · split
        · exact Nat.zero_le _
        · split
          · unfold Way.reported
            dsimp only
            split <;> omega
          · split
            · exact Nat.zero_le _
            · exact hd.write _ _ _ _ _ rfl
  · rw [if_neg hw]
    by_cases hov : wordSize ≤ offset + c.mdl.byteCount
    · rw [if_pos hov]
      exact ⟨Nat.zero_le _, fun _ => rfl⟩
    · rw [if_neg hov]
      refine ⟨?_, fun h => absurd h hov⟩
      split
      · exact Nat.zero_le _
      · split
        · unfold Way.reported
          dsimp only
          split <;> omega
        · by_cases hc : (if d.exclusive = true then e.lockExclusive else e.lockShared) = .success
          · rw [if_neg (not_not.2 hc)]
            exact hd.read _ _ _ _ _ rfl
          · rw [if_pos hc]
            exact Nat.zero_le _

theorem information_eq (hof : offset < wordSize) (hcount : c.mdl.byteCount < wordSize) :
    (d.iopTransfer e s iosb f c offset).2.information
      = if d.Unwritable c then iosb.information else (d.way e s iosb f c offset).reported s e f := by
  unfold iopTransfer way
  by_cases hw : c.isWrite = true
  · rw [if_pos hw, if_pos hw]
    by_cases hnn : d.write = none
    · have hu : d.Unwritable c := ⟨hw, hnn⟩
      rw [if_pos hu]
      unfold DispatchTable.iopWriteFile2
      rw [hnn]
      rfl
    · have hu : ¬ d.Unwritable c := fun h => hnn h.2
      rw [if_neg hu]
      exact write_reported hof hcount hnn
  · have hu : ¬ d.Unwritable c := fun h => hw h.1
    rw [if_neg hw, if_neg hw, if_neg hu]
    exact read_reported hof hcount

omit [DecidableEq F] in
/-- Without a `Write` method nothing is written. -/
theorem way_of_unwritable (h : d.Unwritable c) : d.way e s iosb f c offset = .none := by
  unfold way writeWay
  rw [if_pos h.1, h.2]
  exact if_pos (.inl rfl)

end ReadDispatch

/-! ## Seeks -/

/-- `Whence`; `other` is any other `int`. -/
inductive Whence
  | cur
  | set
  | fromEnd
  | other
  deriving DecidableEq

/-- A call of `IoSeekFile` with an `int64_t`; `wait` is how the wait for the mutex ends. -/
structure SeekCall where
  offset : Int
  whence : Whence
  wait : BStatus
  offset_ge : -0x8000000000000000 ≤ offset
  offset_lt : offset < 0x8000000000000000

/-- What of a file object does not change. -/
structure FileObject (F : Type) where
  file : F
  isDirectory : Bool

/-- The files, a file object's offset, and the thread in a read or write with it, which has taken the
mutex and the offset. -/
structure SharedOffset (T F : Type) where
  files : Files F
  currentFileOffset : Nat
  pending : Option (T × SharedCall × Nat)

/-- `(int64_t) Base + Offset`, which wraps as the processors' sums do. -/
def seekSum (base : Nat) (offset : Int) : Int := Int.bmod (base + offset) wordSize

/-- The sum is exact up to the largest `int64_t`, and from there on 2^64 less. -/
theorem seekSum_eq {base : Nat} {offset : Int} (hb : base < wordSize)
    (hge : -0x8000000000000000 ≤ offset) (hlt : offset < 0x8000000000000000) :
    seekSum base offset = if (base : Int) + offset < 0x8000000000000000 then (base : Int) + offset
        else (base : Int) + offset - 0x10000000000000000 := by
  unfold wordSize at hb
  unfold seekSum wordSize
  rw [Int.bmod_def]
  split <;> split <;> omega

namespace SharedOffset

variable {T F : Type} (o : FileObject F) (s : SharedOffset T F)

/-- What the offset of a seek is relative to. -/
def base : Whence → Nat
  | .cur => s.currentFileOffset
  | .fromEnd => (s.files.fcb o.file).fileLength
  | _ => 0

def resultOffset (q : SeekCall) : Int :=
  match q.whence with
  | .cur => seekSum s.currentFileOffset q.offset
  | .fromEnd => seekSum (s.files.fcb o.file).fileLength q.offset
  | .set => q.offset
  | .other => 0

/-- `IoSeekFile`: the status and the state, which also holds the new offset. -/
def ioSeekFile (q : SeekCall) : BStatus × SharedOffset T F :=
  if q.wait ≠ .success then (q.wait, s)
  else if o.isDirectory = true ∧ q.offset ≠ 0 ∧ q.whence ≠ .set then (.invalidParameter, s)
  else if s.resultOffset o q < 0 then (.invalidParameter, s)
  else (.success, { s with currentFileOffset := (s.resultOffset o q).toNat })

/-- `OSSeekFile`, with the status of `ObReferenceObjectByHandle` and of the copy of the new offset to
`OutNewOffset`, if there is one. What becomes of the seek and of the copy is not returned. -/
def osSeekFile (handle : BStatus) (q : SeekCall) (copyOut : Option BStatus) :
    BStatus × SharedOffset T F :=
  if q.whence = .other then (.invalidParameter, s)
  else if handle ≠ .success then (handle, s)
  else
    let (status, s) := s.ioSeekFile o q
    let _status := if status = .success then copyOut.getD .success else status
    (.success, s)

/-! ## What is asked of a seek -/

/-- The exact offset that a seek asks for. -/
def target (q : SeekCall) : Int := s.base o q.whence + q.offset

/-- The seek is to be performed: it has a base, the mutex is taken, the target is an `int64_t` that is
not negative, and 0 for a directory. -/
def Seekable (q : SeekCall) : Prop :=
  q.whence ≠ .other ∧ q.wait = .success ∧ 0 ≤ s.target o q ∧ s.target o q < 0x8000000000000000 ∧
    (o.isDirectory = true → s.target o q = 0)

/-- The seek is performed, or fails and changes nothing. -/
def Seeks (q : SeekCall) (r : BStatus × SharedOffset T F) : Prop :=
  (s.Seekable o q → r.1 = .success ∧ r.2.currentFileOffset = s.target o q) ∧
    (¬ s.Seekable o q → r.1 ≠ .success ∧ r.2.currentFileOffset = s.currentFileOffset)

/-- The caller has got the new offset, if it has asked for it. -/
def Delivered (copyOut : Option BStatus) : Prop := copyOut = none ∨ copyOut = some .success

/-- The seeks whose sum does not wrap past zero and, for a directory, that are to its start by
`IO_SEEK_SET`, stay at its start or fail. Without a base only the test for directories fails. -/
def SeekFits (q : SeekCall) : Prop :=
  if q.whence = .other then o.isDirectory = true ∧ q.offset ≠ 0
  else if o.isDirectory = true then
    if q.whence = .set then q.offset ≤ 0
    else if q.offset = 0 then
      s.base o q.whence = 0 ∨ 0x8000000000000000 ≤ s.base o q.whence
    else s.target o q ≠ 0
  else s.target o q < wordSize

variable {o s} {q : SeekCall}

section

variable (hc : s.currentFileOffset < wordSize)
  (hlength : (s.files.fcb o.file).fileLength < wordSize)
include hc hlength

theorem base_lt : s.base o q.whence < wordSize := by
  unfold base
  cases q.whence with
  | cur => exact hc
  | fromEnd => exact hlength
  | set => exact Nat.two_pow_pos 64
  | other => exact Nat.two_pow_pos 64

theorem target_bounds :
    -0x8000000000000000 ≤ s.target o q ∧ s.target o q < 0x18000000000000000 := by
  have hge := q.offset_ge
  have hlt := q.offset_lt
  have hb := base_lt (q := q) hc hlength
  unfold wordSize at hb
  unfold target
  omega

theorem resultOffset_eq (hw : q.whence ≠ .other) :
    s.resultOffset o q = if s.target o q < 0x8000000000000000 then s.target o q
      else s.target o q - 0x10000000000000000 := by
  have hlt := q.offset_lt
  unfold resultOffset target base
  cases hq : q.whence with
  | cur => exact seekSum_eq hc q.offset_ge q.offset_lt
  | fromEnd => exact seekSum_eq hlength q.offset_ge q.offset_lt
  | set =>
    dsimp only
    rw [if_pos (by omega)]
    omega
  | other => exact absurd hq hw

/-- A seek that has the mutex is right if it is performed just when it should be. -/
theorem seeks_iff_performed (hw : q.wait = .success) :
    s.Seeks o q (s.ioSeekFile o q) ↔
      (¬ (o.isDirectory = true ∧ q.offset ≠ 0 ∧ q.whence ≠ .set) ∧ 0 ≤ s.resultOffset o q ↔
        s.Seekable o q) := by
  unfold ioSeekFile Seeks
  rw [if_neg (not_not.2 hw)]
  by_cases hj : o.isDirectory = true ∧ q.offset ≠ 0 ∧ q.whence ≠ .set
  · rw [if_pos hj]
    constructor
    · rintro ⟨hdo, -⟩
      exact iff_of_false (fun h => h.1 hj) fun h => by cases (hdo h).1
    · intro hif
      have hnt : ¬ s.Seekable o q := fun h => (hif.2 h).1 hj
      exact ⟨fun h => absurd h hnt, fun _ => ⟨nofun, rfl⟩⟩
  · rw [if_neg hj]
    by_cases hng : s.resultOffset o q < 0
    · rw [if_pos hng]
      constructor
      · rintro ⟨hdo, -⟩
        exact iff_of_false (fun h => by omega) fun h => by cases (hdo h).1
      · intro hif
        have hnt : ¬ s.Seekable o q := fun h => by
          have := (hif.2 h).2
          omega
        exact ⟨fun h => absurd h hnt, fun _ => ⟨nofun, rfl⟩⟩
    · rw [if_neg hng]
      constructor
      · rintro ⟨-, hfl⟩
        refine iff_of_true ⟨hj, by omega⟩ ?_
        by_contra hnt
        exact (hfl hnt).1 rfl
      · intro hif
        have hy : s.Seekable o q := hif.1 ⟨hj, by omega⟩
        refine ⟨fun _ => ⟨rfl, ?_⟩, fun h => absurd hy h⟩
        have hrs := resultOffset_eq (q := q) hc hlength hy.1
        rw [if_pos hy.2.2.2.1] at hrs
        rw [Int.toNat_of_nonneg (by omega), hrs]

/-- **A seek is right just if it fits**, or does not get the mutex. -/
theorem seeks_iff :
    s.Seeks o q (s.ioSeekFile o q) ↔ (q.wait = .success → s.SeekFits o q) := by
  by_cases hwt : q.wait = .success
  · by_cases hw : q.whence = .other
    · have hz : s.resultOffset o q = 0 := by
        unfold resultOffset
        rw [hw]
      rw [seeks_iff_performed hc hlength hwt, imp_iff_right hwt]
      unfold Seekable SeekFits
      rw [hz, hw]
      simp
    have hrs := resultOffset_eq (q := q) hc hlength hw
    obtain ⟨hlo, hh⟩ := target_bounds (q := q) hc hlength
    have htr : s.target o q = s.base o q.whence + q.offset := rfl
    have hlt := q.offset_lt
    have hb := base_lt (q := q) hc hlength
    rw [seeks_iff_performed hc hlength hwt, imp_iff_right hwt]
    unfold wordSize at hb
    unfold Seekable SeekFits wordSize
    simp only [hwt, hw, ne_eq, not_false_eq_true, true_and, if_false]
    by_cases hdr : o.isDirectory = true
    · simp only [hdr, true_and, if_true, true_imp_iff]
      by_cases hst : q.whence = .set
      · have hb : s.base o q.whence = 0 := by rw [hst]; rfl
        simp only [hst, not_true_eq_false, and_false, not_false_eq_true, true_and, if_true]
        split at hrs <;> omega
      · simp only [hst, not_false_eq_true, and_true, not_not, if_false]
        by_cases hz : q.offset = 0
        · simp only [hz, true_and, if_true]
          split at hrs <;> omega
        · simp only [hz, false_and, if_false, false_iff]
          omega
    · simp only [hdr, Bool.false_eq_true, false_and, not_false_eq_true, true_and, if_false,
        false_imp_iff, and_true]
      split at hrs <;> omega
  · refine iff_of_true ?_ fun h => absurd h hwt
    unfold ioSeekFile
    rw [if_pos hwt]
    exact ⟨fun h => absurd h.2.1 hwt, fun _ => ⟨hwt, rfl⟩⟩

end

end SharedOffset

/-! ## Threads -/

inductive OffsetAction (T F : Type)
  | begin (t : T) (call : SharedCall) (wait : BStatus)
  | finish (e : Outcomes) (iosb : Iosb)
  | seek (call : SeekCall)
  | osSeek (handle : BStatus) (call : SeekCall) (copyOut : Option BStatus)
  | other (files : Files F)

namespace SharedOffset

variable {T F : Type} [DecidableEq F] (d : ReadDispatch) (o : FileObject F)

/-- A read or write takes the mutex and the offset and later transfers and moves the offset on;
seeks hold the mutex throughout. A thread whose wait ends with an error changes nothing. Others may
change the files at any time. -/
def step (s : SharedOffset T F) : OffsetAction T F → Option (SharedOffset T F)
  | .begin t call wait =>
    if wait ≠ .success then some s
    else if s.pending.isSome then none
    else some { s with pending := some (t, call, s.currentFileOffset) }
  | .finish e iosb =>
    s.pending.map fun (_, call, offset) =>
      let r := d.iopTransfer e s.files iosb o.file call offset
      { files := r.1
        currentFileOffset := addW s.currentFileOffset r.2.information
        pending := none }
  | .seek call =>
    if call.wait = .success ∧ s.pending.isSome then none else some (s.ioSeekFile o call).2
  | .osSeek handle call copyOut =>
    if call.whence ≠ .other ∧ handle = .success ∧ call.wait = .success ∧ s.pending.isSome then none
    else some (s.osSeekFile o handle call copyOut).2
  | .other files => some { s with files := files }

/-- Byte counts fit a 64-bit word, also the one in an uninitialised status block. -/
def Fits : OffsetAction T F → Prop
  | .begin _ call _ => call.mdl.byteCount < wordSize
  | .finish _ iosb => iosb.information < wordSize
  | _ => True

/-! ## What is asked of a step -/

/-- What a step should do: a transfer moves the offset on, from where it started, by what it has
transferred; a seek is performed or fails; `OSSeekFile` succeeds just if the seek is performed and the
new offset is delivered; and nothing else changes the offset. -/
def StepRight (s : SharedOffset T F) (a : OffsetAction T F) (s' : SharedOffset T F) : Prop :=
  match a with
  | .finish e iosb => ∀ t c offset, s.pending = some (t, c, offset) →
    offset = s.currentFileOffset ∧ s'.currentFileOffset
      = offset + (d.way e s.files iosb o.file c offset).count s.files e o.file
  | .seek q => s.Seeks o q (s.ioSeekFile o q)
  | .osSeek handle q copyOut =>
    (q.whence ≠ .other ∧ handle = .success → s.Seeks o q (s.ioSeekFile o q)) ∧
    (¬ (q.whence ≠ .other ∧ handle = .success) → s'.currentFileOffset = s.currentFileOffset) ∧
    ((s.osSeekFile o handle q copyOut).1 = .success ↔
      handle = .success ∧ s.Seekable o q ∧ Delivered copyOut)
  | _ => s'.currentFileOffset = s.currentFileOffset

/-- The steps that come by no defect: no write without a `Write` method unless the status block happens
to hold a zero, no transfer that runs out of views after its first piece, and seeks that fit, which for
`OSSeekFile` are performed and delivered. -/
def StepFits (s : SharedOffset T F) (a : OffsetAction T F) : Prop :=
  match a with
  | .finish e iosb => ∀ t c offset, s.pending = some (t, c, offset) →
    (d.Unwritable c → iosb.information = 0) ∧
      (d.way e s.files iosb o.file c offset).Lasts s.files e o.file
  | .seek q => q.wait = .success → s.SeekFits o q
  | .osSeek handle q copyOut =>
    q.whence ≠ .other ∧ handle = .success → s.Seekable o q ∧ s.SeekFits o q ∧ Delivered copyOut
  | _ => True

/-! ## Runs -/

/-- A file object as `IoCreateFileObject` leaves it. -/
def fresh (files : Files F) : SharedOffset T F := ⟨files, 0, none⟩

/-- What runs keep: the offset is a 64-bit word, and the one that a read or write has taken is the
file object's, since it holds the mutex. -/
structure Kept (s : SharedOffset T F) : Prop where
  offset_lt : s.currentFileOffset < wordSize
  pending : ∀ t c offset, s.pending = some (t, c, offset) →
    offset = s.currentFileOffset ∧ c.mdl.byteCount < wordSize

variable {d o} {s s' : SharedOffset T F}

omit [DecidableEq F] in
theorem fresh_kept (files : Files F) : (fresh files : SharedOffset T F).Kept :=
  ⟨Nat.two_pow_pos 64, nofun⟩

omit [DecidableEq F] in
theorem resultOffset_lt (q : SeekCall) : s.resultOffset o q < wordSize := by
  have hsm : ∀ x : Int, Int.bmod x wordSize < wordSize := by
    intro x
    have hlt := Int.bmod_lt (x := x) (m := wordSize) (Nat.two_pow_pos 64)
    unfold wordSize at hlt ⊢
    omega
  have hlt := q.offset_lt
  unfold resultOffset
  cases q.whence with
  | cur => exact hsm _
  | fromEnd => exact hsm _
  | set =>
    unfold wordSize
    dsimp only
    omega
  | other => exact Int.natCast_pos.2 (Nat.two_pow_pos 64)

omit [DecidableEq F] in
/-- A seek during which nobody else has the mutex. -/
theorem Kept.seek (h : s.Kept) (q : SeekCall) (hmt : q.wait = .success → s.pending = none) :
    (s.ioSeekFile o q).2.Kept := by
  unfold ioSeekFile
  by_cases hw : q.wait = .success
  · rw [if_neg (not_not.2 hw)]
    split
    · exact h
    · split
      · exact h
      · refine ⟨?_, fun t c offset hp => ?_⟩
        · have hlt := resultOffset_lt (o := o) (s := s) q
          dsimp only
          omega
        · rw [hmt hw] at hp
          cases hp
  · rw [if_pos hw]
    exact h

theorem Kept.step {a : OffsetAction T F} (h : s.Kept) (ha : Fits a) (hst : step d o s a = some s') :
    s'.Kept := by
  cases a with
  | begin t call wait =>
    simp only [SharedOffset.step] at hst
    split at hst
    · cases hst
      exact h
    · split at hst
      · cases hst
      · cases hst
        refine ⟨h.offset_lt, fun t' c offset hp => ?_⟩
        cases hp
        exact ⟨rfl, ha⟩
  | finish e iosb =>
    simp only [SharedOffset.step] at hst
    obtain ⟨⟨t, call, offset⟩, -, rfl⟩ := map_eq_some_iff.1 hst
    exact ⟨addW_lt .., nofun⟩
  | seek call =>
    simp only [SharedOffset.step] at hst
    split at hst
    · cases hst
    · next hmt =>
        cases hst
        exact h.seek call fun hwt => by simpa [hwt] using hmt
  | osSeek handle call co =>
    simp only [SharedOffset.step] at hst
    split at hst
    · cases hst
    · next hmt =>
        cases hst
        unfold osSeekFile
        by_cases hw : call.whence = .other
        · rw [if_pos hw]
          exact h
        · rw [if_neg hw]
          by_cases hh : handle = .success
          · rw [if_neg (not_not.2 hh)]
            exact h.seek call fun hwt => by simpa [hw, hh, hwt] using hmt
          · rw [if_pos hh]
            exact h
  | other files =>
    cases hst
    exact ⟨h.offset_lt, h.pending⟩

/-- A sum of words is the first of them just if the second is zero. -/
theorem addW_eq_left_iff {x y : Nat} (hx : x < wordSize) (hy : y < wordSize) :
    addW x y = x ↔ y = 0 := by
  unfold addW
  unfold wordSize at *
  omega

/-- The new offset after a read or write. -/
theorem finish_right_iff (hd : d.Reports) (h : s.Kept) {e : Outcomes} {iosb : Iosb} {t : T}
    {c : SharedCall} {offset : Nat} (ha : iosb.information < wordSize)
    (hp : s.pending = some (t, c, offset)) :
    addW s.currentFileOffset (d.iopTransfer e s.files iosb o.file c offset).2.information
        = offset + (d.way e s.files iosb o.file c offset).count s.files e o.file ↔
      (d.Unwritable c → iosb.information = 0) ∧
        (d.way e s.files iosb o.file c offset).Lasts s.files e o.file := by
  obtain ⟨rfl, hcount⟩ := h.pending t c offset hp
  rw [ReadDispatch.information_eq h.offset_lt hcount]
  by_cases hu : d.Unwritable c
  · rw [if_pos hu, ReadDispatch.way_of_unwritable hu, imp_iff_right hu]
    exact (addW_eq_left_iff h.offset_lt ha).trans (and_iff_left trivial).symm
  · generalize hw : d.way e s.files iosb o.file c s.currentFileOffset = w
    obtain ⟨hle, hov⟩ : w.reported s.files e o.file ≤ c.mdl.byteCount ∧
        (wordSize ≤ s.currentFileOffset + c.mdl.byteCount → w.reported s.files e o.file = 0) :=
      hw ▸ ReadDispatch.reported_le hd
    have hlt := h.offset_lt
    rw [if_neg hu, addW_of_lt (by omega), Nat.add_left_cancel_iff, ← hw,
      ReadDispatch.reported_eq_count_iff]
    exact (and_iff_right fun h => absurd h hu).symm

omit [DecidableEq F] in
theorem osSeek_right_iff (hcr : s.currentFileOffset < wordSize)
    (hlength : (s.files.fcb o.file).fileLength < wordSize) (handle : BStatus) (q : SeekCall)
    (co : Option BStatus) :
    (q.whence ≠ .other ∧ handle = .success → s.Seeks o q (s.ioSeekFile o q)) ∧
        (¬ (q.whence ≠ .other ∧ handle = .success) →
          (s.osSeekFile o handle q co).2.currentFileOffset = s.currentFileOffset) ∧
        ((s.osSeekFile o handle q co).1 = .success ↔
          handle = .success ∧ s.Seekable o q ∧ Delivered co) ↔
      (q.whence ≠ .other ∧ handle = .success → s.Seekable o q ∧ s.SeekFits o q ∧ Delivered co) := by
  unfold osSeekFile
  by_cases hok : q.whence ≠ .other ∧ handle = .success
  · rw [if_neg hok.1, if_neg (not_not.2 hok.2)]
    constructor
    · rintro ⟨hss, -, hsc⟩ -
      obtain ⟨-, hsk, hc⟩ := hsc.1 rfl
      exact ⟨hsk, (seeks_iff hcr hlength).1 (hss hok) hsk.2.1, hc⟩
    · intro h
      obtain ⟨hsk, hft, hc⟩ := h hok
      exact ⟨fun _ => (seeks_iff hcr hlength).2 fun _ => hft, fun h => absurd hok h,
        iff_of_true rfl ⟨hok.2, hsk, hc⟩⟩
  · refine iff_of_true ⟨fun h => absurd h hok, fun _ => ?_, ?_⟩ fun h => absurd h hok
    · split
      · rfl
      · next hw => rw [if_pos fun h => hok ⟨hw, h⟩]
    · refine iff_of_false (fun h => ?_) fun h => hok ⟨h.2.1.1, h.1⟩
      split at h
      · cases h
      · next hw =>
          have hh : handle ≠ .success := fun h => hok ⟨hw, h⟩
          rw [if_pos hh] at h
          exact hh h

/-- **In every run each step does what it should just if it comes by no defect.** -/
theorem sharedOffset_right_iff (hd : d.Reports) {files : Files F} {a : OffsetAction T F}
    (hreach : Reaches (step d o) (fun _ a => Fits a) (fresh files) s) (ha : Fits a)
    (hlength : (s.files.fcb o.file).fileLength < wordSize) (hstep : step d o s a = some s') :
    StepRight d o s a s' ↔ StepFits d o s a := by
  have h : s.Kept := hreach.invariant (fresh_kept files) fun _ _ _ hkp ha => hkp.step ha
  cases a with
  | begin t call wait =>
    refine iff_of_true ?_ trivial
    simp only [step] at hstep
    split at hstep
    · cases hstep
      rfl
    · split at hstep
      · cases hstep
      · cases hstep
        rfl
  | finish e iosb =>
    simp only [step] at hstep
    obtain ⟨⟨t, c, offset⟩, hp, rfl⟩ := map_eq_some_iff.1 hstep
    have hif := finish_right_iff (o := o) (e := e) hd h ha hp
    constructor
    · intro hrg t' c' offset' hp'
      cases hp.symm.trans hp'
      exact hif.1 (hrg t c offset hp).2
    · intro hft t' c' offset' hp'
      cases hp.symm.trans hp'
      exact ⟨(h.pending t c offset hp).1, hif.2 (hft t c offset hp)⟩
  | seek call => exact seeks_iff h.offset_lt hlength
  | osSeek handle call copyOut =>
    simp only [step] at hstep
    split at hstep
    · cases hstep
    · cases hstep
      exact osSeek_right_iff h.offset_lt hlength handle call copyOut
  | other files =>
    cases hstep
    exact iff_of_true rfl trivial

theorem seekableOnly_reports : ReadDispatch.seekableOnly.Reports where
  read iosb fcb mdl flags offset hz := by
    change iosb.information ≤ mdl.byteCount
    omega
  write iosb fcb mdl flags offset hz := by
    change iosb.information ≤ mdl.byteCount
    omega

/-- The file of ten bytes, opened. -/
def tenObject : FileObject Unit := ⟨(), false⟩

/-- A read of four bytes from the cache. -/
def fourBytes : SharedCall := ⟨false, ⟨0, 4, fun _ _ => 0⟩, 0x10#32, true⟩

/-- The end of that read. -/
def fourRead : OffsetAction Unit Unit :=
  .finish ⟨.success, .success, .success, fun _ => some 0⟩ ⟨.success, 9⟩

/-- Four bytes are read and the offset goes on by four. -/
theorem sharedOffset_right_four : ∃ s', step ReadDispatch.seekableOnly tenObject
        ⟨ReadDispatch.tenBytes, 0, some ((), fourBytes, 0)⟩ fourRead = some s' ∧
      StepRight ReadDispatch.seekableOnly tenObject
        ⟨ReadDispatch.tenBytes, 0, some ((), fourBytes, 0)⟩ fourRead s' := by
  have hc : Reaches (step ReadDispatch.seekableOnly tenObject) (fun _ a => Fits a)
      (fresh ReadDispatch.tenBytes)
      ⟨ReadDispatch.tenBytes, 0, some ((), fourBytes, 0)⟩ :=
    .single (a := .begin () fourBytes .success) (by decide : (4 : Nat) < wordSize) rfl
  have hw : Fits fourRead := (by decide : (9 : Nat) < wordSize)
  refine ⟨_, rfl, (sharedOffset_right_iff seekableOnly_reports hc hw
    (by decide : (10 : Nat) < wordSize) rfl).2 ?_⟩
  intro t c offset hp
  cases hp
  refine ⟨fun h => absurd h.1 nofun, ?_⟩
  exact .inr (by decide +kernel)

/-- A seek to before the start of the file. -/
def seekBefore : SeekCall := ⟨-1, .set, .success, by decide, by decide⟩

/-- `OSSeekFile` succeeds though that seek is not performed. -/
theorem osSeekFile_before_start :
    ¬ ∀ (d : ReadDispatch) (o : FileObject Unit) (files : Files Unit) (s s' : SharedOffset Unit Unit)
      (a : OffsetAction Unit Unit), d.Reports →
      Reaches (step d o) (fun _ a => Fits a) (fresh files) s → Fits a → step d o s a = some s' →
      StepRight d o s a s' := by
  intro h
  have hrg := h ReadDispatch.seekableOnly tenObject ReadDispatch.tenBytes
    (fresh ReadDispatch.tenBytes) _ (.osSeek .success seekBefore none) seekableOnly_reports .refl
    trivial rfl
  obtain ⟨-, hsk, -⟩ := hrg.2.2.1 rfl
  have hpos : (0 : Int) ≤ -1 := hsk.2.2.1
  exact absurd hpos (by decide)

end SharedOffset

end Boron.Io
