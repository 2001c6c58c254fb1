import Boron.Io.RdWr

/-! # Partitions (`io/part.c`, `io/partobj.c`)

A partition is a file whose driver hands each transfer down to the device it lies on, moved by the
start of the partition. The driver checks no bounds: that a transfer stays within the partition is
left to `IopReadFile2` and `IopWriteFile2`, which know the length of the file. Cached calls go through
the page cache, whose transfers are calls of the same two functions for one page each.

The model keeps the list of all transfers that a call asks the device for. `contained_iff` says for
which entries of the partition table and which calls all of them are where they should be. -/

namespace Boron.Io

open List

open Boron.Cc (BStatus viewCacheSize)

/-- What counts of an `MBR_PARTITION`. -/
structure MbrPartition where
  startLba : BitVec 32
  partSizeSectors : BitVec 32

/-- `FCB_PART_EXT`, and the length of the file. -/
structure Partition where
  offset : Nat
  size : Nat
  fileLength : Nat

def ioCreatePartition (offset size : Nat) : Partition := ⟨offset, size, size⟩

/-- The partition that `IopRegisterMbrPartition` creates. The products are 32-bit products. -/
def iopRegisterMbrPartition (m : MbrPartition) : Partition :=
  ioCreatePartition (m.startLba * 512).toNat (m.partSizeSectors * 512).toNat

/-- A call of the device's `Read` or `Write` method, for the bytes of the partition's file from
`fileOffset` on. -/
structure Transfer where
  isWrite : Bool
  fileOffset : Nat
  deviceOffset : Nat
  byteCount : Nat

/-- The transfers of a call, and its status. -/
abbrev Transfers := List Transfer × BStatus

/-- Two parts of a call; the second is not reached if the first one fails. -/
def Transfers.andThen (a b : Transfers) : Transfers :=
  if a.2 = .success then (a.1 ++ b.1, b.2) else a

/-- What a call finds: the device, how the waits end, and the state of the page cache. -/
structure Host where
  /-- Whether the device has a `Read` method, and a `Write` method. -/
  read : Bool
  write : Bool
  /-- How locking the device ends, and how its methods end. -/
  lock : BStatus
  status : BStatus
  /-- How the waits for the partition itself end, and which windows have or get a view. -/
  outcomes : Outcomes
  /-- The pages that have to be read in, and the modified pages that are written back. -/
  pageIn : Nat → Bool
  flush : Nat → Bool

/-- A call of `IopReadFile` or `IopWriteFile`, with the file object's `CurrentFileOffset`. -/
structure Request where
  isWrite : Bool
  mdl : Mdl
  flags : BitVec 32
  offset : Nat
  currentFileOffset : Nat
  cached : Bool
  byteCount_lt : mdl.byteCount < wordSize
  offset_lt : offset < wordSize
  currentFileOffset_lt : currentFileOffset < wordSize

/-- The MDL of `MmInitializeSinglePageMdl`. -/
def pageMdl : Mdl := ⟨0, Mdl.pageSize, fun _ _ => 0⟩

/-- `PFDBE_Offset` of the number of a page that `MmSetCacheDetailsPfn` has noted. -/
def pfdbeOffset (page : Nat) : Nat := page % 2 ^ 32 ||| (page / 2 ^ 32 % 2 ^ 16) <<< 16

namespace Partition

variable (p : Partition) (h : Host)

/-! ## The driver -/

/-- What `IopPartitionRead` and `IopPartitionWrite` do, for a device that has the method or not. -/
def forward (isWrite implemented : Bool) (offset : Nat) (mdl : Mdl) : Transfers :=
  if !implemented then ([], .unsupportedFunction)
  else if h.lock ≠ .success then ([], h.lock)
  else ([⟨isWrite, offset, addW p.offset offset, mdl.byteCount⟩], h.status)

def iopPartitionRead (offset : Nat) (mdl : Mdl) : Transfers := p.forward h false h.read offset mdl

def iopPartitionWrite (offset : Nat) (mdl : Mdl) : Transfers := p.forward h true h.write offset mdl

/-! ## Reading and writing

The dispatch table of partitions has no flags, its files are seekable, and there is no `Resize`
method. `cache` is the cache's part of a cached call. -/

def iopReadFile2 (cache : Option (Nat → Nat → Transfers)) (mdl : Mdl) (offset : Nat) : Transfers :=
  if addW mdl.byteCount offset < mdl.byteCount ∨ addW mdl.byteCount offset < offset then
    ([], .invalidParameter)
  else if offset ≥ p.fileLength then ([], .success)
  else
    match cache with
    | some ccReadFileMdl => ccReadFileMdl offset mdl.byteCount
    | none =>
      if h.outcomes.lockShared ≠ .success then ([], h.outcomes.lockShared)
      else p.iopPartitionRead h offset mdl

/-- The locking part of `IopWriteFile2`: the new offset, and what `Status` is left at. -/
def lockForWrite (flags : BitVec 32) (offset endOffset : Nat) : Except BStatus (Nat × BStatus) :=
  if flags &&& ioRwAppend ≠ 0 then
    if h.outcomes.lockExclusive ≠ .success then .error h.outcomes.lockExclusive
    else .ok (p.fileLength, .success)
  else if endOffset > p.fileLength then
    if h.outcomes.lockExclusive ≠ .success then .error h.outcomes.lockExclusive
    else .ok (offset, .unsupportedFunction)
  else if h.outcomes.lockShared ≠ .success then .error h.outcomes.lockShared
  else .ok (offset, .success)

def iopWriteFile2 (cache : Option (Nat → Nat → Transfers)) (mdl : Mdl) (flags : BitVec 32)
    (offset : Nat) : Transfers :=
  if addW mdl.byteCount offset < mdl.byteCount ∨ addW mdl.byteCount offset < offset then
    ([], .invalidParameter)
  else
    match p.lockForWrite h flags offset (addW offset mdl.byteCount) with
    | .error status => ([], status)
    | .ok (offset, status) =>
      if offset ≥ p.fileLength then ([], .success)
      else
        let byteCount :=
          if addW mdl.byteCount offset ≥ p.fileLength then p.fileLength - offset
          else mdl.byteCount
        match cache with
        | some ccWriteFileMdl => ccWriteFileMdl offset byteCount
        | none => if status ≠ .success then ([], status) else p.iopPartitionWrite h offset mdl

/-! ## The page cache -/

def ioPerformPagingRead (page : Nat) : Transfers :=
  p.iopReadFile2 h none pageMdl (mulW page Mdl.pageSize)

def ioPerformModifiedPageWrite (offset : Nat) : Transfers :=
  p.iopWriteFile2 h none pageMdl 0 offset

/-- The transfers of `MiFlushModifiedPage`. What is written are the bytes of the page, wherever the
code writes them to. -/
def miFlushModifiedPage (page : Nat) : List Transfer :=
  (p.ioPerformModifiedPageWrite h (mulW (pfdbeOffset page) Mdl.pageSize)).1.map
    fun t => { t with fileOffset := page * Mdl.pageSize }

/-- A copy from or to one page of a view. A page that is missing is read in first; the call does not
survive a failure to do so. A page that is written to is written back at some later time. -/
def touchPage (isWrite : Bool) (page : Nat) : Transfers :=
  Transfers.andThen (if h.pageIn page then p.ioPerformPagingRead h page else ([], .success))
    (if isWrite && h.flush page then p.miFlushModifiedPage h page else [], .success)

def touchPages (isWrite : Bool) : (count page : Nat) → Transfers
  | 0, _ => ([], .success)
  | count + 1, page => (p.touchPage h isWrite page).andThen (touchPages isWrite count (page + 1))

/-- The loop of `CcReadFileMdl` and `CcWriteFileMdl`, which goes from view to view. -/
def copyViews (isWrite : Bool) : (fuel fileOffset size : Nat) → Transfers
  | 0, _, _ => ([], .success)
  | fuel + 1, fileOffset, size =>
    if size = 0 then ([], .success)
    else
      let viewOffset := fileOffset % viewCacheSize
      let bytesTillNext := viewCacheSize - viewOffset
      let copyAmount := if size < bytesTillNext then size else bytesTillNext
      match h.outcomes.space (fileOffset / viewCacheSize) with
      | none => ([], .insufficientMemory)
      | some _ =>
        let first := fileOffset / Mdl.pageSize
        let last := (fileOffset + copyAmount - 1) / Mdl.pageSize
        (p.touchPages h isWrite (last + 1 - first) first).andThen
          (copyViews isWrite fuel (fileOffset + copyAmount) (size - copyAmount))

def ccReadFileMdl (fileOffset byteCount : Nat) : Transfers :=
  p.copyViews h false byteCount fileOffset byteCount

def ccWriteFileMdl (fileOffset byteCount : Nat) : Transfers :=
  p.copyViews h true byteCount fileOffset byteCount

end Partition

namespace Request

variable (r : Request)

/-- The offset that a call starts from. -/
def startOffset : Nat :=
  if r.flags &&& ioRwSharedFileOffset ≠ 0 then r.currentFileOffset else r.offset

/-- `IopReadFile` and `IopWriteFile`. -/
def perform (p : Partition) (h : Host) : Transfers :=
  if r.flags &&& ioRwSharedFileOffset ≠ 0 ∧ h.outcomes.offsetMutex ≠ .success then
    ([], h.outcomes.offsetMutex)
  else if r.isWrite then
    p.iopWriteFile2 h (if r.cached then some (p.ccWriteFileMdl h) else none) r.mdl r.flags
      r.startOffset
  else p.iopReadFile2 h (if r.cached then some (p.ccReadFileMdl h) else none) r.mdl r.startOffset

end Request

/-! ## Transfers within the partition -/

namespace Transfers

variable {P : Transfer → Prop} {a b : Transfers}

theorem all_andThen (ha : ∀ t ∈ a.1, P t) (hb : ∀ t ∈ b.1, P t) : ∀ t ∈ (a.andThen b).1, P t := by
  unfold andThen
  split
  · intro t ht
    rcases mem_append.1 ht with h | h
    · exact ha t h
    · exact hb t h
  · exact ha

theorem mem_andThen_left {t : Transfer} (h : t ∈ a.1) : t ∈ (a.andThen b).1 := by
  unfold andThen
  split
  · exact mem_append_left _ h
  · exact h

theorem andThen_of_success (h : a.2 = .success) : a.andThen b = (a.1 ++ b.1, b.2) := if_pos h

end Transfers

/-- The transfer is where the bytes of the file belong, and does not go past the file's end. -/
def Partition.Keeps (p : Partition) (t : Transfer) : Prop :=
  t.deviceOffset = p.offset + t.fileOffset ∧ t.fileOffset + t.byteCount ≤ p.fileLength

/-- The transfer starts within the file and ends behind it. -/
def Partition.Crosses (p : Partition) (t : Transfer) : Prop :=
  t.deviceOffset = addW p.offset t.fileOffset ∧ t.fileOffset < p.fileLength ∧
    p.fileLength < t.fileOffset + t.byteCount

/-- The page is not the one that the partition ends in the middle of. -/
def Partition.WholePage (p : Partition) (page : Nat) : Prop :=
  (page + 1) * Mdl.pageSize ≤ p.fileLength ∨ p.fileLength ≤ page * Mdl.pageSize

theorem pfdbeOffset_of_lt {page : Nat} (h : page < 2 ^ 32) : pfdbeOffset page = page := by
  rw [pfdbeOffset, Nat.mod_eq_of_lt h, Nat.div_eq_of_lt h]
  exact Nat.or_zero page

namespace Partition

variable {p : Partition} {h : Host}

variable {isWrite : Bool} {offset : Nat} {mdl : Mdl}

variable {imp : Bool}

variable (hp : p.offset + p.fileLength < wordSize)
include hp

theorem forward_keeps (he : offset + mdl.byteCount ≤ p.fileLength) :
    ∀ t ∈ (p.forward h isWrite imp offset mdl).1, p.Keeps t := by
  unfold forward
  split
  · nofun
  · split
    · nofun
    · intro t ht
      obtain rfl := mem_singleton.1 ht
      exact ⟨addW_of_lt (by omega), he⟩

variable {t : Transfer}

omit hp in
theorem fileOffset_forward (ht : t ∈ (p.forward h isWrite imp offset mdl).1) : t.fileOffset = offset := by
  unfold forward at ht
  split at ht
  · cases ht
  · split at ht
    · cases ht
    · rw [mem_singleton.1 ht]

/-- The transfer of an uncached read is the whole buffer. -/
theorem iopReadFile2_keeps (he : offset < p.fileLength → offset + mdl.byteCount < wordSize →
      offset + mdl.byteCount ≤ p.fileLength) (hn : mdl.byteCount < wordSize)
    (ho : offset < wordSize) : ∀ t ∈ (p.iopReadFile2 h none mdl offset).1, p.Keeps t := by
  unfold iopReadFile2
  split
  · nofun
  · next hov =>
      rw [DispatchTable.overflow_iff hn ho] at hov
      split
      · nofun
      · simp only
        split
        · nofun
        · exact forward_keeps hp (he (by omega) (by omega))

variable {flags : BitVec 32}

omit hp in
/-- What the lock leaves of the offset, and the writes that it lets go on. -/
theorem lockForWrite_ok {eo : Nat} {x : Nat × BStatus} (hok : p.lockForWrite h flags offset eo = .ok x) :
    (flags &&& ioRwAppend ≠ 0 ∧ x.1 = p.fileLength) ∨
    (flags &&& ioRwAppend = 0 ∧ x.1 = offset ∧ (x.2 = .success → eo ≤ p.fileLength)) := by
  unfold lockForWrite at hok
  split at hok
  · next ha =>
      split at hok
      · cases hok
      · cases hok
        exact .inl ⟨ha, rfl⟩
  · next ha =>
      refine .inr ⟨not_not.1 ha, ?_⟩
      split at hok
      · split at hok
        · cases hok
        · cases hok
          exact ⟨rfl, nofun⟩
      · next he =>
          split at hok
          · cases hok
          · cases hok
            exact ⟨rfl, fun _ => Nat.le_of_not_gt he⟩

/-- The file is not extended for an uncached write, and the failure to do so ends the call. -/
theorem iopWriteFile2_keeps (hn : mdl.byteCount < wordSize) (ho : offset < wordSize) :
    ∀ t ∈ (p.iopWriteFile2 h none mdl flags offset).1, p.Keeps t := by
  unfold iopWriteFile2
  split
  · nofun
  · next hov =>
      rw [DispatchTable.overflow_iff hn ho] at hov
      split
      · nofun
      · next offset' st hc =>
          split
          · nofun
          · next hin =>
              simp only
              split
              · nofun
              · next hst =>
                  refine forward_keeps hp ?_
                  rcases lockForWrite_ok hc with ⟨-, ha⟩ | ⟨-, rfl, he⟩
                  · omega
                  · rw [addW_of_lt (by omega)] at he
                    exact he (not_not.1 hst)

omit hp in
/-- An uncached write that is not an append goes to its own place. -/
theorem fileOffset_iopWriteFile2
    (ht : t ∈ (p.iopWriteFile2 h none mdl 0 offset).1) : t.fileOffset = offset := by
  unfold iopWriteFile2 at ht
  split at ht
  · cases ht
  · split at ht
    · cases ht
    · next offset' st hc =>
        have hof : offset' = offset := by
          rcases lockForWrite_ok hc with ⟨ha, -⟩ | ⟨-, hof, -⟩
          · exact (ha (BitVec.zero_and)).elim
          · exact hof
        split at ht
        · cases ht
        · simp only at ht
          split at ht
          · cases ht
          · rw [fileOffset_forward ht, hof]

variable {page : Nat}

theorem ioPerformPagingRead_keeps (hpg : page * Mdl.pageSize < wordSize) (hw : p.WholePage page) :
    ∀ t ∈ (p.ioPerformPagingRead h page).1, p.Keeps t := by
  rw [ioPerformPagingRead, mulW_of_lt hpg]
  refine iopReadFile2_keeps hp (fun hin _ => ?_) (by decide) hpg
  have hy : pageMdl.byteCount = Mdl.pageSize := rfl
  rw [hy]
  rcases hw with hb | hh
  · rwa [Nat.add_one_mul] at hb
  · omega

theorem miFlushModifiedPage_keeps (hpg : page < 2 ^ 32) :
    ∀ t ∈ p.miFlushModifiedPage h page, p.Keeps t := by
  intro t ht
  obtain ⟨u, hu, rfl⟩ := mem_map.1 ht
  have hlt : page * Mdl.pageSize < wordSize := by
    unfold Mdl.pageSize wordSize
    omega
  rw [pfdbeOffset_of_lt hpg, mulW_of_lt hlt] at hu
  have hpl := fileOffset_iopWriteFile2 hu
  have hkp := iopWriteFile2_keeps hp (by decide) hlt u hu
  rw [Keeps, hpl] at hkp
  exact hkp

theorem touchPage_keeps (hpg : page * Mdl.pageSize < wordSize) (hw : p.WholePage page)
    (hfl : isWrite = true → page < 2 ^ 32) :
    ∀ t ∈ (p.touchPage h isWrite page).1, p.Keeps t := by
  refine Transfers.all_andThen ?_ ?_
  · split
    · exact ioPerformPagingRead_keeps hp hpg hw
    · nofun
  · intro t ht
    split at ht
    · next hwr =>
        exact miFlushModifiedPage_keeps hp (hfl (Bool.and_eq_true_iff.1 hwr).1) t ht
    · cases ht

variable {count first : Nat}

theorem touchPages_keeps (hpages : ∀ page, first ≤ page → page < first + count →
      page * Mdl.pageSize < wordSize ∧ p.WholePage page ∧ (isWrite = true → page < 2 ^ 32)) :
    ∀ t ∈ (p.touchPages h isWrite count first).1, p.Keeps t := by
  induction count generalizing first with
  | zero => nofun
  | succ count ih =>
    obtain ⟨hlt, hw, hfl⟩ := hpages first (Nat.le_refl _) (by omega)
    refine Transfers.all_andThen (touchPage_keeps hp hlt hw hfl) (ih ?_)
    intro page hfs hls
    exact hpages page (by omega) (by omega)

variable {fileOffset : Nat}

variable {fuel size : Nat}

/-- A cached call asks for whole pages; only a page that reaches past the end is out of place. -/
theorem copyViews_keeps (hsm : fileOffset + size < wordSize)
    (hpages : ∀ page, fileOffset < (page + 1) * Mdl.pageSize → page * Mdl.pageSize < fileOffset + size →
      p.WholePage page ∧ (isWrite = true → page < 2 ^ 32)) :
    ∀ t ∈ (p.copyViews h isWrite fuel fileOffset size).1, p.Keeps t := by
  induction fuel generalizing fileOffset size with
  | zero => nofun
  | succ fuel ih =>
    unfold copyViews
    split
    · nofun
    · next hsize =>
        generalize hn : (if size < viewCacheSize - fileOffset % viewCacheSize then size
          else viewCacheSize - fileOffset % viewCacheSize) = n
        have hb := Boron.Cc.Files.chunk_bounds (by omega) hn
        simp only [hn]
        split
        · nofun
        · refine Transfers.all_andThen (touchPages_keeps hp ?_) (ih (by omega) ?_)
          · intro page hfs hls
            have hrn : fileOffset < (page + 1) * Mdl.pageSize ∧
                page * Mdl.pageSize < fileOffset + size := by
              unfold Mdl.pageSize at *
              omega
            exact ⟨by omega, hpages page hrn.1 hrn.2⟩
          · intro page hfs hls
            exact hpages page (by omega) (by omega)

omit hp

/-! ## The page at the end -/

/-- Everything is there, and no page is in the page cache. -/
def ready : Host :=
  ⟨true, true, .success, .success, ⟨.success, .success, .success, fun _ => some 0⟩, fun _ => true,
    fun _ => false⟩

/-- The transfer that reads in a page. -/
def pageRead (p : Partition) (page : Nat) : Transfer :=
  ⟨false, page * Mdl.pageSize, addW p.offset (page * Mdl.pageSize), Mdl.pageSize⟩

theorem touchPage_ready (isWrite : Bool) (hp : p.fileLength + Mdl.pageSize < wordSize)
    (hpg : page * Mdl.pageSize < p.fileLength) :
    p.touchPage ready isWrite page = ([p.pageRead page], .success) := by
  have hb : pageMdl.byteCount = Mdl.pageSize := rfl
  have hov : ¬ (addW Mdl.pageSize (page * Mdl.pageSize) < Mdl.pageSize ∨
      addW Mdl.pageSize (page * Mdl.pageSize) < page * Mdl.pageSize) := by
    rw [DispatchTable.overflow_iff (by decide) (by omega)]
    omega
  have hread : p.ioPerformPagingRead ready page = ([p.pageRead page], .success) := by
    rw [ioPerformPagingRead, mulW_of_lt (by omega), iopReadFile2, hb, if_neg hov, if_neg (by omega)]
    rfl
  have hpn : ready.pageIn page = true := rfl
  rw [touchPage, if_pos hpn, hread]
  simp [Transfers.andThen, ready]

theorem touchPages_ready (isWrite : Bool) (hp : p.fileLength + Mdl.pageSize < wordSize)
    (hpages : ∀ page < first + count, page * Mdl.pageSize < p.fileLength) :
    (p.touchPages ready isWrite count first).2 = .success := by
  induction count generalizing first with
  | zero => rfl
  | succ count ih =>
    rw [touchPages, touchPage_ready isWrite hp (hpages first (by omega)),
      Transfers.andThen_of_success rfl]
    refine ih fun page hpg => ?_
    exact hpages page (by omega)

theorem mem_touchPages (isWrite : Bool)
    (hp : p.fileLength + Mdl.pageSize < wordSize) (hpg : page * Mdl.pageSize < p.fileLength)
    (hfs : first ≤ page) (hls : page < first + count) :
    p.pageRead page ∈ (p.touchPages ready isWrite count first).1 := by
  induction count generalizing first with
  | zero => omega
  | succ count ih =>
    have hle : first * Mdl.pageSize ≤ page * Mdl.pageSize := Nat.mul_le_mul_right _ hfs
    rw [touchPages, touchPage_ready isWrite hp (by omega), Transfers.andThen_of_success rfl]
    rcases Nat.eq_or_lt_of_le hfs with rfl | hlt
    · exact mem_append_left _ (mem_singleton_self _)
    · exact mem_append_right _ (ih hlt (by omega))

/-- The pages of a piece lie before each page that the piece does not reach. -/
theorem lt_of_touched {n k : Nat} (hn : 0 < n) (hp : fileOffset + n ≤ page * Mdl.pageSize)
    (hk : k < fileOffset / Mdl.pageSize
      + ((fileOffset + n - 1) / Mdl.pageSize + 1 - fileOffset / Mdl.pageSize)) : k < page := by
  unfold Mdl.pageSize at *
  omega

theorem mem_copyViews (isWrite : Bool) (hp : p.fileLength + Mdl.pageSize < wordSize) (hfl : size ≤ fuel)
    (hpg : page * Mdl.pageSize < p.fileLength) (hfs : fileOffset < (page + 1) * Mdl.pageSize)
    (hls : page * Mdl.pageSize < fileOffset + size) (hsize : 0 < size) :
    p.pageRead page ∈ (p.copyViews ready isWrite fuel fileOffset size).1 := by
  induction fuel generalizing fileOffset size with
  | zero => omega
  | succ fuel ih =>
    generalize hn : (if size < viewCacheSize - fileOffset % viewCacheSize then size
      else viewCacheSize - fileOffset % viewCacheSize) = n
    have hb := Boron.Cc.Files.chunk_bounds (by omega) hn
    rw [copyViews, if_neg (by omega)]
    simp only [hn]
    rw [show ready.outcomes.space (fileOffset / viewCacheSize) = some 0 from rfl]
    simp only
    by_cases hc : page * Mdl.pageSize < fileOffset + n
    · refine Transfers.mem_andThen_left (mem_touchPages isWrite hp hpg ?_ ?_)
      · unfold Mdl.pageSize at *
        omega
      · unfold Mdl.pageSize at *
        omega
    · rw [Transfers.andThen_of_success]
      · have hnext : fileOffset + n < (page + 1) * Mdl.pageSize := by
          rw [Nat.add_one_mul]
          exact Nat.lt_add_right_iff_pos.2 (by decide) |>.trans_le' (Nat.le_of_not_lt hc)
        exact mem_append_right _ (ih (by omega) hnext (by omega) (by omega))
      · refine touchPages_ready isWrite hp fun k hk => ?_
        have hlt : k < page := lt_of_touched hb.1 (Nat.le_of_not_lt hc) hk
        exact (Nat.mul_lt_mul_of_pos_right hlt (by decide)).trans hpg

end Partition

/-! ## Containment -/

namespace Request

/-- The call ends with the file, before a page that the file ends in the middle of if it is cached,
or has nothing to transfer; uncached writes past the end are refused. -/
def EndsWithin (r : Request) (size : Nat) : Prop :=
  wordSize ≤ r.startOffset + r.mdl.byteCount ∨ size ≤ r.startOffset ∨
    if r.cached then
      (r.isWrite = true ∧ r.flags &&& ioRwAppend ≠ 0) ∨ r.mdl.byteCount = 0 ∨
        size % Mdl.pageSize = 0 ∨ r.startOffset + r.mdl.byteCount ≤ size / Mdl.pageSize * Mdl.pageSize
    else r.isWrite = true ∨ r.startOffset + r.mdl.byteCount ≤ size

theorem startOffset_lt (r : Request) : r.startOffset < wordSize := by
  unfold startOffset
  split
  · exact r.currentFileOffset_lt
  · exact r.offset_lt

variable {r : Request} {p : Partition} {h : Host}

theorem wholePage_of_end {stop page : Nat}
    (hst : p.fileLength % Mdl.pageSize = 0 ∨ stop ≤ p.fileLength / Mdl.pageSize * Mdl.pageSize)
    (hp : page * Mdl.pageSize < stop) : p.WholePage page := by
  unfold Partition.WholePage Mdl.pageSize at *
  omega

variable {size : Nat}

/-- What the cache transfers for a range that ends before an incomplete page. -/
theorem copyViews_keeps_of_end {isWrite : Bool} {offset : Nat}
    (hp : p.offset + p.fileLength < wordSize) (hsm : offset + size < wordSize)
    (hst : size = 0 ∨ p.fileLength % Mdl.pageSize = 0 ∨
      offset + size ≤ p.fileLength / Mdl.pageSize * Mdl.pageSize)
    (hfl : isWrite = true → offset + size ≤ 2 ^ 32) :
    ∀ t ∈ (p.copyViews h isWrite size offset size).1, p.Keeps t := by
  rcases hst with rfl | hst
  · nofun
  · refine Partition.copyViews_keeps hp hsm fun page _ hpg => ?_
    refine ⟨wholePage_of_end hst hpg, fun hw => ?_⟩
    have hle := hfl hw
    unfold Mdl.pageSize at hpg
    omega

section

variable (hp : p.offset + p.fileLength < wordSize)
include hp

theorem read_keeps (hr : r.EndsWithin p.fileLength)
    (hread : r.isWrite = false) :
    ∀ t ∈ (p.iopReadFile2 h (if r.cached then some (p.ccReadFileMdl h) else none) r.mdl
      r.startOffset).1, p.Keeps t := by
  unfold EndsWithin at hr
  simp only [hread, Bool.false_eq_true, false_and, false_or] at hr
  by_cases hc : r.cached = true
  · simp only [hc, ↓reduceIte] at hr ⊢
    unfold Partition.iopReadFile2
    split
    · nofun
    · next hov =>
        rw [DispatchTable.overflow_iff r.byteCount_lt r.startOffset_lt] at hov
        split
        · nofun
        · next hin =>
            refine copyViews_keeps_of_end hp (by omega) ?_ nofun
            rcases hr with hr | hr | hr
            · omega
            · omega
            · exact hr
  · simp only [hc, Bool.false_eq_true, ↓reduceIte] at hr ⊢
    refine Partition.iopReadFile2_keeps hp (fun hin hsm => ?_) r.byteCount_lt r.startOffset_lt
    omega

theorem write_keeps (hlength : p.fileLength < 2 ^ 32)
    (hr : r.EndsWithin p.fileLength) (hw : r.isWrite = true) :
    ∀ t ∈ (p.iopWriteFile2 h (if r.cached then some (p.ccWriteFileMdl h) else none) r.mdl r.flags
      r.startOffset).1, p.Keeps t := by
  unfold EndsWithin at hr
  simp only [hw, true_and, true_or] at hr
  by_cases hc : r.cached = true
  · simp only [hc, ↓reduceIte] at hr ⊢
    unfold Partition.iopWriteFile2
    split
    · nofun
    · next hov =>
        rw [DispatchTable.overflow_iff r.byteCount_lt r.startOffset_lt] at hov
        split
        · nofun
        · next offset st hlc =>
            split
            · nofun
            · next hin =>
                rcases Partition.lockForWrite_ok hlc with ⟨-, ha⟩ | ⟨ha, hof, -⟩
                · omega
                · simp only at hof
                  subst hof
                  simp only
                  rw [addW_of_lt (by omega)]
                  -- The cache is given the part of the buffer that lies within the file.
                  generalize hn : (if r.mdl.byteCount + r.startOffset ≥ p.fileLength then
                    p.fileLength - r.startOffset else r.mdl.byteCount) = n
                  have hst : r.startOffset + n ≤ p.fileLength ∧ n ≤ r.mdl.byteCount := by
                    split at hn <;> omega
                  refine copyViews_keeps_of_end hp (by omega) ?_ fun _ => by omega
                  rcases hr with hr | hr | hr | hr | hr | hr
                  · omega
                  · omega
                  · exact (hr ha).elim
                  · omega
                  · exact .inr (.inl hr)
                  · exact .inr (.inr (by omega))
  · simp only [hc, Bool.false_eq_true, ↓reduceIte]
    exact Partition.iopWriteFile2_keeps hp r.byteCount_lt r.startOffset_lt

theorem perform_keeps (hlength : p.fileLength < 2 ^ 32)
    (hr : r.EndsWithin p.fileLength) : ∀ t ∈ (r.perform p h).1, p.Keeps t := by
  unfold perform
  split
  · nofun
  · split
    · next hw => exact write_keeps hp hlength hr hw
    · next hread => exact read_keeps hp hr (Bool.eq_false_iff.2 hread)

end

theorem copyViews_crosses (isWrite : Bool) {offset : Nat}
    (hp : p.fileLength + Mdl.pageSize < wordSize) (hin : offset < p.fileLength) (hsize : 0 < size)
    (hpr : p.fileLength % Mdl.pageSize ≠ 0)
    (hst : p.fileLength / Mdl.pageSize * Mdl.pageSize < offset + size) :
    ∃ t ∈ (p.copyViews Partition.ready isWrite size offset size).1, p.Crosses t := by
  have hdv := Nat.div_add_mod' p.fileLength Mdl.pageSize
  have hmd : p.fileLength % Mdl.pageSize < Mdl.pageSize := Nat.mod_lt _ (by decide)
  have hnext : offset < (p.fileLength / Mdl.pageSize + 1) * Mdl.pageSize := by
    rw [Nat.add_one_mul]
    omega
  have hme := Partition.mem_copyViews (p := p) isWrite hp (Nat.le_refl _) (by omega) hnext hst hsize
  refine ⟨_, hme, rfl, ?_, ?_⟩ <;> simp only [Partition.pageRead] <;> omega

section

variable (hp : p.fileLength + Mdl.pageSize < wordSize)
include hp

theorem read_crosses (hr : ¬ r.EndsWithin p.fileLength) (hread : r.isWrite = false) :
    ∃ t ∈ (p.iopReadFile2 Partition.ready
      (if r.cached then some (p.ccReadFileMdl Partition.ready) else none) r.mdl r.startOffset).1,
      p.Crosses t := by
  unfold EndsWithin at hr
  simp only [hread, Bool.false_eq_true, false_and, false_or, not_or] at hr
  obtain ⟨hsm, hin, hr⟩ := hr
  unfold Partition.iopReadFile2
  rw [if_neg (by rw [DispatchTable.overflow_iff r.byteCount_lt r.startOffset_lt]; omega), if_neg hin]
  by_cases hc : r.cached = true
  · simp only [hc, ↓reduceIte, not_or] at hr ⊢
    exact copyViews_crosses false hp (by omega) (by omega) hr.2.1 (by omega)
  · simp only [hc, Bool.false_eq_true, ↓reduceIte] at hr ⊢
    refine ⟨⟨false, r.startOffset, addW p.offset r.startOffset, r.mdl.byteCount⟩,
      mem_singleton_self _, rfl, ?_, ?_⟩ <;> simp only <;> omega

theorem write_crosses (hr : ¬ r.EndsWithin p.fileLength) (hw : r.isWrite = true) :
    ∃ t ∈ (p.iopWriteFile2 Partition.ready
      (if r.cached then some (p.ccWriteFileMdl Partition.ready) else none) r.mdl r.flags
      r.startOffset).1, p.Crosses t := by
  unfold EndsWithin at hr
  simp only [hw, true_and, true_or, not_or] at hr
  obtain ⟨hsm, hin, hr⟩ := hr
  by_cases hc : r.cached = true
  · simp only [hc, ↓reduceIte, not_or, not_not] at hr ⊢
    obtain ⟨ha, hr⟩ := hr
    have hlc : ∃ st, p.lockForWrite Partition.ready r.flags r.startOffset
        (addW r.startOffset r.mdl.byteCount) = .ok (r.startOffset, st) := by
      unfold Partition.lockForWrite
      rw [if_neg (not_not.2 ha)]
      split
      · exact ⟨_, rfl⟩
      · exact ⟨_, rfl⟩
    obtain ⟨st, hlc⟩ := hlc
    unfold Partition.iopWriteFile2
    rw [if_neg (by rw [DispatchTable.overflow_iff r.byteCount_lt r.startOffset_lt]; omega), hlc]
    simp only
    rw [if_neg hin, addW_of_lt (by omega)]
    generalize hn : (if r.mdl.byteCount + r.startOffset ≥ p.fileLength then
      p.fileLength - r.startOffset else r.mdl.byteCount) = n
    have hdv := Nat.div_add_mod' p.fileLength Mdl.pageSize
    refine copyViews_crosses true hp (by omega) ?_ hr.2.1 ?_
    · split at hn <;> omega
    · split at hn <;> omega
  · simp only [hc, Bool.false_eq_true, ↓reduceIte, not_true] at hr

theorem perform_crosses
    (hr : ¬ r.EndsWithin p.fileLength) : ∃ t ∈ (r.perform p Partition.ready).1, p.Crosses t := by
  unfold perform
  rw [if_neg fun hmt => hmt.2 rfl]
  split
  · next hw => exact write_crosses hp hr hw
  · next hread => exact read_crosses hp hr (Bool.eq_false_iff.2 hread)

end

end Request

namespace MbrPartition

variable (m : MbrPartition)

/-- The first byte of the entry's part of the device, and the first one behind it. -/
def first : Nat := m.startLba.toNat * 512

def last : Nat := (m.startLba.toNat + m.partSizeSectors.toNat) * 512

def Covers : Prop :=
  (iopRegisterMbrPartition m).offset = m.first ∧
  (iopRegisterMbrPartition m).offset + (iopRegisterMbrPartition m).size = m.last ∧
  (iopRegisterMbrPartition m).offset + (iopRegisterMbrPartition m).fileLength = m.last

def Inside (t : Transfer) : Prop :=
  t.deviceOffset = m.first + t.fileOffset ∧
    ∀ i < t.byteCount, m.first ≤ t.deviceOffset + i ∧ t.deviceOffset + i < m.last

/-- The partition is the entry's part of the device, and whatever the call finds, its transfers are
within that part. -/
def Contained (r : Request) : Prop :=
  m.Covers ∧ ∀ h, ∀ t ∈ (r.perform (iopRegisterMbrPartition m) h).1, m.Inside t

theorem covers_iff : m.Covers ↔ m.startLba.toNat < 2 ^ 23 ∧ m.partSizeSectors.toNat < 2 ^ 23 := by
  have hst : (m.startLba * 512).toNat = m.startLba.toNat * 512 % 2 ^ 32 := BitVec.toNat_mul ..
  have hsize : (m.partSizeSectors * 512).toNat = m.partSizeSectors.toNat * 512 % 2 ^ 32 :=
    BitVec.toNat_mul ..
  simp only [Covers, iopRegisterMbrPartition, ioCreatePartition, first, last, hst, hsize]
  omega

variable {m} {r : Request} {p : Partition}

theorem Covers.bounds (h : m.Covers) : (iopRegisterMbrPartition m).offset = m.first ∧
    (iopRegisterMbrPartition m).fileLength = m.partSizeSectors.toNat * 512 ∧
    (iopRegisterMbrPartition m).offset + (iopRegisterMbrPartition m).fileLength = m.last ∧
    (iopRegisterMbrPartition m).fileLength < 2 ^ 32 ∧ m.last < 2 ^ 33 := by
  obtain ⟨hst, hsize⟩ := (covers_iff m).1 h
  obtain ⟨hof, -, hls⟩ := h
  have hsm : m.last = m.first + m.partSizeSectors.toNat * 512 := Nat.add_mul ..
  refine ⟨hof, by omega, hls, by omega, ?_⟩
  rw [hsm, first]
  omega

variable {t : Transfer}

theorem inside_of_keeps (h : m.Covers) (ht : (iopRegisterMbrPartition m).Keeps t) : m.Inside t := by
  obtain ⟨hof, -, hls, -, -⟩ := h.bounds
  obtain ⟨hp, he⟩ := ht
  refine ⟨by omega, fun i hi => ?_⟩
  omega

theorem not_inside_of_crosses (h : m.Covers)
    (ht : (iopRegisterMbrPartition m).Crosses t) : ¬ m.Inside t := by
  obtain ⟨-, -, hls, hlength, hb⟩ := h.bounds
  obtain ⟨hp, hst, he⟩ := ht
  rw [addW_of_lt (by unfold wordSize; omega)] at hp
  intro hin
  have hps := hin.2 ((iopRegisterMbrPartition m).fileLength - t.fileOffset) (by omega)
  omega

/-- A partition covers its entry if the entry lies in the first 4 GiB and is smaller than that, and
keeps the calls that do not go on to the last page's missing part. -/
theorem contained_iff (m : MbrPartition) (r : Request) :
    m.Contained r ↔ m.startLba.toNat < 2 ^ 23 ∧ m.partSizeSectors.toNat < 2 ^ 23 ∧
      r.EndsWithin (m.partSizeSectors.toNat * 512) := by
  rw [← and_assoc, ← covers_iff]
  constructor
  · rintro ⟨hc, ha⟩
    refine ⟨hc, ?_⟩
    obtain ⟨-, hsize, -, hlength, -⟩ := hc.bounds
    rw [← hsize]
    by_contra hr
    obtain ⟨t, ht, hcr⟩ :=
      Request.perform_crosses (by unfold wordSize Mdl.pageSize; omega) hr
    exact not_inside_of_crosses hc hcr (ha _ t ht)
  · rintro ⟨hc, hr⟩
    obtain ⟨-, hsize, hls, hlength, hb⟩ := hc.bounds
    rw [← hsize] at hr
    refine ⟨hc, fun h t ht => inside_of_keeps hc ?_⟩
    exact Request.perform_keeps (by unfold wordSize; omega) hlength hr t ht

theorem wordSize_pos : 0 < wordSize := by decide

/-- A request for `n` bytes at the start of a partition. -/
def readAtStart (n : Nat) (hn : n < wordSize) : Request :=
  ⟨false, ⟨0, n, fun _ _ => 0⟩, 0, 0, 0, false, hn, wordSize_pos, wordSize_pos⟩

/-- The first entry begins at 4 GiB, and its partition at the start of the device. The second one is
one sector long, and a read of a page goes past it. -/
theorem not_contained : (¬ ∀ m : MbrPartition, m.startLba ≠ 0 → m.partSizeSectors ≠ 0 → m.Covers) ∧
    ¬ ∀ (m : MbrPartition) (r : Request), m.startLba ≠ 0 → m.partSizeSectors ≠ 0 →
      ∀ h, ∀ t ∈ (r.perform (iopRegisterMbrPartition m) h).1, m.Inside t := by
  constructor
  · intro ha
    have h := ha ⟨0x800000, 0x800⟩ (by decide) (by decide)
    revert h
    rw [covers_iff]
    decide
  · intro ha
    have hcv : Covers ⟨1, 1⟩ := (covers_iff _).2 (by decide)
    have he : ¬ (readAtStart 4096 (by decide)).EndsWithin 512 := by
      rintro (hov | hb | he)
      · exact absurd hov (by decide)
      · exact absurd hb (by decide)
      · exact absurd he (by decide)
    obtain ⟨t, ht, hc⟩ :=
      Request.perform_crosses (p := iopRegisterMbrPartition ⟨1, 1⟩) (by decide) he
    exact not_inside_of_crosses hcv hc (ha ⟨1, 1⟩ _ (by decide) (by decide) Partition.ready t ht)

end MbrPartition

end Boron.Io
