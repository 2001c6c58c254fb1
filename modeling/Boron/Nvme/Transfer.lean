import Boron.Cc.ViewCache
import Boron.Lib.Word
import Boron.Nvme.Queue

/-! # Transfers (`stornvme/rdwr.c`, `stornvme/commands.c`)

A read or write command names blocks of the disk, one less than their number, and memory by two
pointers: the second is that of the second page, or of a page with a list of the pages from the second
on when there are more. `NvmePerformIoOperation` sends one command for a whole MDL; when it cannot get
a page for the list, it goes through the MDL's pages, and has a page's worth of blocks transferred at
the MDL's offset in each (`nvmePerformIoOperation_right_iff`). What a controller makes of a first
pointer that is not aligned to four bytes is not looked into here. -/

namespace Boron.Nvme

open List

open Boron.Cc (BStatus)

def mmPFNToPhysPage (pfn : Nat) : Nat := pfn * pageSize

/-- An `MDL`. `pages` is what stands in `Pages` and in the memory behind it. -/
structure Mdl where
  byteOffset : Nat
  byteCount : Nat
  pages : Nat → Nat
  byteOffset_lt : byteOffset < pageSize

/-- `NumberPages`, as `MmAllocateMdl` sets it. -/
def Mdl.numberPages (mdl : Mdl) : Nat :=
  (mdl.byteOffset + mdl.byteCount + (pageSize - 1)) / pageSize

/-- A read or write command, with the list that was written to a page for it. -/
structure ReadWrite where
  isWrite : Bool
  prp : Nat × Nat
  prpList : List Nat
  lbaLow : Nat
  lbaHigh : Nat
  logicalBlockCount : Nat
  deriving DecidableEq

/-- `NvmeSendRead` and `NvmeSendWrite` fill in their command alike. -/
def readWriteCommand (isWrite : Bool) (prp : Nat × Nat) (prpList : List Nat) (lba blockCount : Nat) :
    ReadWrite where
  isWrite := isWrite
  prp := prp
  prpList := prpList
  lbaLow := lba % 2 ^ 32
  lbaHigh := lba / 2 ^ 32 % 2 ^ 32
  logicalBlockCount := subW blockCount 1 % 2 ^ 16

/-- What a call meets: the frame that `MmAllocatePhysicalPage` finds, and the status of the n-th command
that is sent. -/
structure Controller where
  blockSizeLog : Nat
  prpPfn : Option Nat
  answer : Nat → BStatus

namespace Controller

variable (c : Controller)

/-- Send a command and wait for it. -/
def nvmeSend (sent : List ReadWrite) (command : ReadWrite) : List ReadWrite × BStatus :=
  (sent ++ [command], c.answer sent.length)

/-- The loop that is taken when there is no page for the list. -/
def pageByPage (onePage : List ReadWrite → Nat → Option (List ReadWrite × BStatus)) :
    (left i : Nat) → List ReadWrite → Option (List ReadWrite × BStatus)
  | 0, _, sent => some (sent, .success)
  | left + 1, i, sent =>
    match onePage sent i with
    | none => none
    | some (sent, status) =>
      if status ≠ .success then some (sent, status) else pageByPage onePage left (i + 1) sent

/-- `NvmePerformIoOperation`, which calls itself at most `depth` times within itself. It halts on an MDL
of more than 512 pages. -/
def nvmePerformIoOperation : (depth : Nat) → List ReadWrite → (lba blockCount : Nat) → (mdl : Mdl) →
    (isWrite : Bool) → (pageOffsetInMdl mdlSizeOverride : Nat) → Option (List ReadWrite × BStatus)
  | 0, _, _, _, _, _, _, _ => none
  | depth + 1, sent, lba, blockCount, mdl, isWrite, pageOffsetInMdl, mdlSizeOverride =>
    if 512 < mdl.numberPages then none
    else
      let pageCount := if mdlSizeOverride ≠ 0 then mdlSizeOverride else mdl.numberPages
      let prp0 := mmPFNToPhysPage (mdl.pages pageOffsetInMdl) + mdl.byteOffset
      if 2 < pageCount then
        match c.prpPfn with
        | none =>
          let blocksPerPage := pageSize / 2 ^ c.blockSizeLog
          pageByPage
            (fun sent i =>
              nvmePerformIoOperation depth sent (addW lba (mulW blocksPerPage i)) blocksPerPage mdl
                isWrite i (if mdl.byteOffset = 0 then 1 else 2))
            pageCount 0 sent
        | some pfn =>
          let prpList := (List.range (pageCount - 1)).map fun index =>
            mmPFNToPhysPage (mdl.pages (pageOffsetInMdl + (index + 1)))
          some (c.nvmeSend sent
            (readWriteCommand isWrite (prp0, mmPFNToPhysPage pfn) prpList lba blockCount))
      else if pageCount = 2 then
        let prp1 := mmPFNToPhysPage (mdl.pages (pageOffsetInMdl + 1))
        some (c.nvmeSend sent (readWriteCommand isWrite (prp0, prp1) [] lba blockCount))
      else some (c.nvmeSend sent (readWriteCommand isWrite (prp0, 0) [] lba blockCount))

end Controller

/-! ## What a command transfers -/

namespace ReadWrite

variable (command : ReadWrite) (blockSizeLog : Nat)

/-- The number of bytes. -/
def length : Nat := (command.logicalBlockCount + 1) * 2 ^ blockSizeLog

/-- The first block. -/
def lba : Nat := command.lbaLow + 2 ^ 32 * command.lbaHigh

/-- The number of pages that the bytes are in. -/
def pageCount : Nat :=
  (command.prp.1 % pageSize + command.length blockSizeLog + (pageSize - 1)) / pageSize

/-- The address of the j-th page. -/
def pageAddress (j : Nat) : Nat :=
  if j = 0 then command.prp.1 / pageSize * pageSize
  else if command.pageCount blockSizeLog ≤ 2 then command.prp.2
  else command.prpList.getD (j - 1) 0

/-- The address of the k-th byte. -/
def address (k : Nat) : Nat :=
  command.pageAddress blockSizeLog ((command.prp.1 % pageSize + k) / pageSize)
    + (command.prp.1 % pageSize + k) % pageSize

/-- The bytes of memory, each with the byte of the disk that it is read from or written to. -/
def described : List (Nat × Nat) :=
  (List.range (command.length blockSizeLog)).map fun k =>
    (command.address blockSizeLog k, command.lba * 2 ^ blockSizeLog + k)

end ReadWrite

/-- A call of `NvmePerformIoOperation`: an MDL of whole blocks, and as many blocks of the disk. A block
has from 512 bytes to a page, which `NvmeInitializeNamespace` asserts. The block numbers come from byte
offsets of 64 bits. -/
structure Transfer where
  mdl : Mdl
  lba : Nat
  blockSizeLog : Nat
  blockSizeLog_ge : 9 ≤ blockSizeLog
  blockSizeLog_le : blockSizeLog ≤ 12
  aligned : 2 ^ blockSizeLog ∣ mdl.byteCount
  nonempty : 0 < mdl.byteCount
  pages_le : mdl.numberPages ≤ 512
  blocks_le : lba + mdl.byteCount / 2 ^ blockSizeLog ≤ wordSize

namespace Transfer

variable (t : Transfer)

/-- The k-th byte of the buffer, with the byte of the disk that belongs to it. -/
def pair (k : Nat) : Nat × Nat :=
  (mmPFNToPhysPage (t.mdl.pages ((t.mdl.byteOffset + k) / pageSize))
      + (t.mdl.byteOffset + k) % pageSize,
    t.lba * 2 ^ t.blockSizeLog + k)

/-- The bytes that are to be transferred. -/
def pairs : List (Nat × Nat) := (List.range t.mdl.byteCount).map t.pair

/-- The call, on a controller whose answers and free pages are the given ones. -/
def perform (isWrite : Bool) (prpPfn : Option Nat) (answer : Nat → BStatus) :
    Option (List ReadWrite × BStatus) :=
  (Controller.mk t.blockSizeLog prpPfn answer).nvmePerformIoOperation 2 [] t.lba
    (t.mdl.byteCount / 2 ^ t.blockSizeLog) t.mdl isWrite 0 0

/-- What the commands transfer. -/
def transferred (sent : List ReadWrite) : List (Nat × Nat) :=
  sent.flatMap (·.described t.blockSizeLog)

/-- The call returns; the commands it has sent transfer the bytes that are to be transferred, in order
and each once: all of them if it succeeds, and the first of them if it fails. -/
def Right (isWrite : Bool) (prpPfn : Option Nat) (answer : Nat → BStatus) : Prop :=
  ∃ sent status, t.perform isWrite prpPfn answer = some (sent, status)
    ∧ t.transferred sent <+: t.pairs ∧ (status = .success → t.transferred sent = t.pairs)
    ∧ ∀ command ∈ sent, command.isWrite = isWrite

/-- The MDL is made of whole pages. -/
def WholePages : Prop := t.mdl.byteOffset = 0 ∧ pageSize ∣ t.mdl.byteCount

/-! ## One command -/

variable {t}

theorem readWriteCommand_length (iw : Bool) (prp : Nat × Nat) (pl : List Nat)
    (lba : Nat) {bc : Nat} (hpos : 0 < bc) (hle : bc ≤ 2 ^ 16) (blockSizeLog : Nat) :
    (readWriteCommand iw prp pl lba bc).length blockSizeLog = bc * 2 ^ blockSizeLog := by
  have hb : subW bc 1 = bc - 1 :=
    subW_of_le hpos (hle.trans_lt (by decide))
  have hmd : (bc - 1) % 2 ^ 16 = bc - 1 := Nat.mod_eq_of_lt (by omega)
  simp only [ReadWrite.length, readWriteCommand, hb, hmd]
  rw [Nat.sub_add_cancel hpos]

theorem readWriteCommand_lba {iw : Bool} {prp : Nat × Nat} {pl : List Nat}
    {lba bc : Nat} (hb : lba < wordSize) :
    (readWriteCommand iw prp pl lba bc).lba = lba := by
  simp only [ReadWrite.lba, readWriteCommand]
  unfold wordSize at hb
  omega

theorem mmPFNToPhysPage_add_div (pfn : Nat) {offset : Nat} (h : offset < pageSize) :
    (mmPFNToPhysPage pfn + offset) / pageSize = pfn ∧
      (mmPFNToPhysPage pfn + offset) % pageSize = offset := by
  unfold mmPFNToPhysPage pageSize at *
  omega

/-- A command that points at the pages from the i-th on and at the blocks that belong to them transfers
the bytes of the buffer from there on. -/
theorem described_eq {command : ReadWrite} {i : Nat}
    (hp : command.prp.1 = mmPFNToPhysPage (t.mdl.pages i) + t.mdl.byteOffset)
    (hpages : ∀ j, j + 1 < command.pageCount t.blockSizeLog →
      command.pageAddress t.blockSizeLog (j + 1) = mmPFNToPhysPage (t.mdl.pages (i + (j + 1))))
    (hb : command.lba * 2 ^ t.blockSizeLog = t.lba * 2 ^ t.blockSizeLog + pageSize * i) :
    command.described t.blockSizeLog
      = (List.range (command.length t.blockSizeLog)).map fun k => t.pair (pageSize * i + k) := by
  obtain ⟨hdv, hmd⟩ := mmPFNToPhysPage_add_div (t.mdl.pages i) t.mdl.byteOffset_lt
  rw [← hp] at hdv hmd
  refine map_congr_left fun k hk => ?_
  have hk := mem_range.1 hk
  have hpg : (t.mdl.byteOffset + (pageSize * i + k)) / pageSize
        = i + (t.mdl.byteOffset + k) / pageSize ∧
      (t.mdl.byteOffset + (pageSize * i + k)) % pageSize = (t.mdl.byteOffset + k) % pageSize := by
    unfold pageSize
    omega
  refine Prod.ext ?_ ?_
  · simp only [pair, ReadWrite.address, hmd, hpg.1, hpg.2]
    congr 1
    cases hj : (t.mdl.byteOffset + k) / pageSize with
    | zero =>
      rw [ReadWrite.pageAddress, if_pos rfl, hdv]
      rfl
    | succ j =>
      refine hpages j ?_
      have hlt : (t.mdl.byteOffset + k) / pageSize < command.pageCount t.blockSizeLog := by
        unfold ReadWrite.pageCount
        rw [hmd]
        unfold pageSize
        omega
      omega
  · simp only [pair, hb]
    omega

variable (t)

theorem blocks_mul : t.mdl.byteCount / 2 ^ t.blockSizeLog * 2 ^ t.blockSizeLog = t.mdl.byteCount :=
  Nat.div_mul_cancel t.aligned

theorem byteCount_le : t.mdl.byteCount ≤ 512 * pageSize := by
  have hpages := t.pages_le
  unfold Mdl.numberPages pageSize at *
  omega

/-- There are so few blocks that their number fits the command. -/
theorem blocks_bounds : 0 < t.mdl.byteCount / 2 ^ t.blockSizeLog ∧
    t.mdl.byteCount / 2 ^ t.blockSizeLog ≤ 2 ^ 16 := by
  have hml := t.blocks_mul
  have hpos := t.nonempty
  have hle := t.byteCount_le
  have hb : 2 ^ 9 ≤ 2 ^ t.blockSizeLog := Nat.pow_le_pow_right (by decide) t.blockSizeLog_ge
  refine ⟨Nat.pos_of_ne_zero fun h => by simp [h] at hml; omega, ?_⟩
  have hcount : t.mdl.byteCount / 2 ^ t.blockSizeLog * 2 ^ 9 ≤ 512 * pageSize :=
    (Nat.mul_le_mul_left _ hb).trans (hml.le.trans hle)
  unfold pageSize at hcount
  omega

theorem lba_lt : t.lba < wordSize := by
  have hle := t.blocks_le
  have hpos := t.blocks_bounds.1
  omega

theorem described_whole {isWrite : Bool} {prp1 : Nat} {prpList : List Nat}
    (hpages : ∀ j, j + 1 < t.mdl.numberPages →
      (if t.mdl.numberPages ≤ 2 then prp1 else prpList.getD j 0)
        = mmPFNToPhysPage (t.mdl.pages (j + 1))) :
    (readWriteCommand isWrite (mmPFNToPhysPage (t.mdl.pages 0) + t.mdl.byteOffset, prp1) prpList
      t.lba (t.mdl.byteCount / 2 ^ t.blockSizeLog)).described t.blockSizeLog = t.pairs := by
  obtain ⟨hpos, hle⟩ := t.blocks_bounds
  have hlength := fun prp =>
    readWriteCommand_length isWrite prp prpList t.lba hpos hle t.blockSizeLog
  simp only [t.blocks_mul] at hlength
  have hmd := (mmPFNToPhysPage_add_div (t.mdl.pages 0) t.mdl.byteOffset_lt).2
  have hcount : (readWriteCommand isWrite (mmPFNToPhysPage (t.mdl.pages 0) + t.mdl.byteOffset, prp1)
      prpList t.lba (t.mdl.byteCount / 2 ^ t.blockSizeLog)).pageCount t.blockSizeLog
        = t.mdl.numberPages := by
    simp only [ReadWrite.pageCount, hlength, Mdl.numberPages]
    simp only [readWriteCommand, hmd]
  rw [described_eq (i := 0) rfl, hlength]
  · exact map_congr_left fun k _ => by rw [Nat.mul_zero, Nat.zero_add]
  · intro j hj
    rw [hcount] at hj
    rw [ReadWrite.pageAddress, hcount, if_neg (Nat.succ_ne_zero j), Nat.zero_add]
    exact hpages j hj
  · rw [readWriteCommand_lba t.lba_lt, Nat.mul_zero, Nat.add_zero]

/-- With a page for the list, or no need for one, there is one command, and it is right. -/
theorem perform_list (isWrite : Bool) {prpPfn : Option Nat} (answer : Nat → BStatus)
    (h : 2 < t.mdl.numberPages → prpPfn ≠ none) :
    ∃ command, t.perform isWrite prpPfn answer = some ([command], answer 0)
      ∧ command.described t.blockSizeLog = t.pairs ∧ command.isWrite = isWrite := by
  unfold perform Controller.nvmePerformIoOperation
  rw [if_neg (Nat.not_lt.2 t.pages_le)]
  simp only [ne_eq, not_true_eq_false, if_false, Nat.zero_add]
  by_cases hw : 2 < t.mdl.numberPages
  · rw [if_pos hw]
    cases prpPfn with
    | none => exact absurd rfl (h hw)
    | some pfn =>
      refine ⟨_, rfl, t.described_whole fun j hj => ?_, rfl⟩
      rw [if_neg (by omega), getD_eq_getElem?_getD, List.getElem?_map, List.getElem?_range (by omega)]
      rfl
  · rw [if_neg hw]
    by_cases heq : t.mdl.numberPages = 2
    · rw [if_pos heq]
      refine ⟨_, rfl, t.described_whole fun j hj => ?_, rfl⟩
      have hz : j = 0 := by omega
      rw [if_pos (by omega), hz]
    · rw [if_neg heq]
      exact ⟨_, rfl, t.described_whole fun j hj => by omega, rfl⟩

/-! ## Page by page -/

def blocksPerPage : Nat := pageSize / 2 ^ t.blockSizeLog

theorem blocksPerPage_mul : t.blocksPerPage * 2 ^ t.blockSizeLog = pageSize := by
  have hdv : 2 ^ t.blockSizeLog ∣ 2 ^ 12 := Nat.pow_dvd_pow 2 t.blockSizeLog_le
  exact Nat.div_mul_cancel hdv

theorem blocksPerPage_bounds : 0 < t.blocksPerPage ∧ t.blocksPerPage ≤ 2 ^ 12 := by
  have hml := t.blocksPerPage_mul
  refine ⟨Nat.pos_of_ne_zero fun h => by simp [h, pageSize] at hml, ?_⟩
  exact Nat.div_le_self _ _

/-- The command for the i-th page. -/
def pageCommand (isWrite : Bool) (i : Nat) : ReadWrite :=
  readWriteCommand isWrite
    (mmPFNToPhysPage (t.mdl.pages i) + t.mdl.byteOffset,
      if t.mdl.byteOffset = 0 then 0 else mmPFNToPhysPage (t.mdl.pages (i + 1))) []
    (addW t.lba (mulW t.blocksPerPage i)) t.blocksPerPage

/-- It transfers a page's worth of bytes. -/
theorem pageCommand_length (iw : Bool) (i : Nat) :
    (t.pageCommand iw i).length t.blockSizeLog = pageSize := by
  obtain ⟨hpos, hle⟩ := t.blocksPerPage_bounds
  rw [pageCommand, readWriteCommand_length _ _ _ _ hpos (hle.trans (by decide)), t.blocksPerPage_mul]

/-- If these are all in the buffer, they are those at that place of it. -/
theorem pageCommand_described (isWrite : Bool) {i : Nat} (hin : pageSize * (i + 1) ≤ t.mdl.byteCount) :
    (t.pageCommand isWrite i).described t.blockSizeLog
      = (List.range pageSize).map fun k => t.pair (pageSize * i + k) := by
  have hmd := (mmPFNToPhysPage_add_div (t.mdl.pages i) t.mdl.byteOffset_lt).2
  have hb : t.lba + t.blocksPerPage * i + t.blocksPerPage ≤ wordSize := by
    refine le_trans ?_ t.blocks_le
    have hml : t.blocksPerPage * (i + 1) ≤ t.mdl.byteCount / 2 ^ t.blockSizeLog := by
      rw [Nat.le_div_iff_mul_le (Nat.pow_pos (by decide)), Nat.mul_right_comm, t.blocksPerPage_mul]
      exact hin
    rw [Nat.mul_succ] at hml
    omega
  have hpos := t.blocksPerPage_bounds.1
  have hlb : addW t.lba (mulW t.blocksPerPage i) = t.lba + t.blocksPerPage * i := by
    rw [mulW_of_lt (by omega), addW_of_lt (by omega)]
  rw [described_eq (i := i) rfl, t.pageCommand_length]
  · intro j hj
    have hcount : (t.pageCommand isWrite i).pageCount t.blockSizeLog
        = (t.mdl.byteOffset + pageSize + (pageSize - 1)) / pageSize := by
      rw [ReadWrite.pageCount, t.pageCommand_length]
      simp only [pageCommand, readWriteCommand, hmd]
    have hof := t.mdl.byteOffset_lt
    rw [hcount] at hj
    have hj : j = 0 ∧ t.mdl.byteOffset ≠ 0 := by
      unfold pageSize at hj hof
      omega
    rw [ReadWrite.pageAddress, if_neg (Nat.succ_ne_zero j), hcount, if_pos ?_]
    · simp only [pageCommand, readWriteCommand, if_neg hj.2, hj.1]
    · unfold pageSize at *
      omega
  · rw [pageCommand, readWriteCommand_lba (by rw [hlb]; omega), hlb, Nat.add_mul,
      Nat.mul_right_comm, t.blocksPerPage_mul]

theorem perform_page (iw : Bool) (ans : Nat → BStatus) (sent : List ReadWrite) (i : Nat) :
    (Controller.mk t.blockSizeLog none ans).nvmePerformIoOperation 1 sent
      (addW t.lba (mulW (pageSize / 2 ^ t.blockSizeLog) i)) (pageSize / 2 ^ t.blockSizeLog) t.mdl
      iw i (if t.mdl.byteOffset = 0 then 1 else 2)
      = some (sent ++ [t.pageCommand iw i], ans sent.length) := by
  unfold Controller.nvmePerformIoOperation
  rw [if_neg (Nat.not_lt.2 t.pages_le)]
  unfold pageCommand
  by_cases hz : t.mdl.byteOffset = 0
  · simp [hz, Controller.nvmeSend, blocksPerPage]
  · simp [hz, Controller.nvmeSend, blocksPerPage]

/-- The loop sends the commands for the pages in order, until one fails. -/
theorem pageByPage_spec (iw : Bool) (ans : Nat → BStatus)
    {op : List ReadWrite → Nat → Option (List ReadWrite × BStatus)}
    (hon : ∀ sent i, op sent i = some (sent ++ [t.pageCommand iw i], ans sent.length)) (left i : Nat) :
    ∃ n st, Controller.pageByPage op left i ((List.range i).map (t.pageCommand iw))
        = some ((List.range n).map (t.pageCommand iw), st)
      ∧ (n = i + left ∧ st = .success ∧ (∀ j < left, ans (i + j) = .success)
        ∨ st ≠ .success ∧ i < n ∧ n ≤ i + left ∧ ans (n - 1) ≠ .success
          ∧ ∀ j, i ≤ j → j < n - 1 → ans j = .success) := by
  induction left generalizing i with
  | zero => exact ⟨i, .success, rfl, .inl ⟨rfl, rfl, nofun⟩⟩
  | succ left ih =>
    have hnext : (List.range i).map (t.pageCommand iw) ++ [t.pageCommand iw i]
        = (List.range (i + 1)).map (t.pageCommand iw) := by
      rw [range_succ, map_append]
      rfl
    rw [Controller.pageByPage, hon]
    simp only [length_map, length_range, hnext]
    by_cases hok : ans i = .success
    · rw [if_neg (not_not.2 hok)]
      obtain ⟨n, st, hrn, hc⟩ := ih (i + 1)
      refine ⟨n, st, hrn, hc.imp ?_ ?_⟩
      · rintro ⟨hn, hst, ha⟩
        refine ⟨by omega, hst, fun j hj => ?_⟩
        cases j with
        | zero => exact hok
        | succ j =>
          have := ha j (by omega)
          rwa [Nat.add_right_comm] at this
      · rintro ⟨hst, hlt, hle, hls, ha⟩
        refine ⟨hst, by omega, by omega, hls, fun j hij hj => ?_⟩
        rcases Nat.eq_or_lt_of_le hij with rfl | hij
        · exact hok
        · exact ha j hij hj
    · rw [if_pos hok]
      exact ⟨i + 1, ans i, rfl, .inr ⟨hok, by omega, by omega, hok, fun j _ hj => by omega⟩⟩

theorem transferred_length (iw : Bool) (n : Nat) :
    (t.transferred ((List.range n).map (t.pageCommand iw))).length = pageSize * n := by
  induction n with
  | zero => rfl
  | succ n ih =>
    rw [transferred] at ih ⊢
    rw [range_succ, map_append, flatMap_append, length_append, ih]
    simp [ReadWrite.described, t.pageCommand_length, Nat.mul_succ]

theorem transferred_eq (iw : Bool) {n : Nat} (hin : pageSize * n ≤ t.mdl.byteCount) :
    t.transferred ((List.range n).map (t.pageCommand iw)) = (List.range (pageSize * n)).map t.pair := by
  induction n with
  | zero => rfl
  | succ n ih =>
    have hle : pageSize * n ≤ t.mdl.byteCount := by
      rw [Nat.mul_succ] at hin
      omega
    have ih := ih hle
    rw [transferred] at ih ⊢
    rw [range_succ, map_append, flatMap_append, ih, Nat.mul_succ, range_add, map_append, map_map]
    simp [t.pageCommand_described iw hin, Function.comp_def]

/-- The first commands are right just if there is room in the buffer for that many pages. -/
theorem transferred_isPrefix_iff (iw : Bool) (n : Nat) :
    t.transferred ((List.range n).map (t.pageCommand iw)) <+: t.pairs ↔
      pageSize * n ≤ t.mdl.byteCount := by
  constructor
  · intro h
    have := h.length_le
    rwa [t.transferred_length, pairs, length_map, length_range] at this
  · intro h
    obtain ⟨rest, hrs⟩ := Nat.exists_eq_add_of_le h
    rw [t.transferred_eq iw h, pairs, hrs, range_add, map_append]
    exact prefix_append _ _

theorem transferred_eq_pairs_iff (iw : Bool) (n : Nat) :
    t.transferred ((List.range n).map (t.pageCommand iw)) = t.pairs ↔
      pageSize * n = t.mdl.byteCount := by
  constructor
  · intro h
    have := congrArg List.length h
    rwa [t.transferred_length, pairs, length_map, length_range] at this
  · intro h
    rw [t.transferred_eq iw h.le, pairs, h]

theorem wholePages_iff : pageSize * t.mdl.numberPages = t.mdl.byteCount ↔ t.WholePages := by
  unfold WholePages Mdl.numberPages
  constructor
  · intro h
    refine ⟨?_, h ▸ Nat.dvd_mul_right _ _⟩
    unfold pageSize at *
    omega
  · rintro ⟨hz, n, hn⟩
    rw [hz, hn]
    unfold pageSize
    omega

/-- **The commands that are sent transfer the bytes of the buffer and the blocks of the request, each
once and in order, just if there is a page for the list or no need for one, or the MDL is made of whole
pages, or a command fails before those for the pages that the buffer fills.** -/
theorem nvmePerformIoOperation_right_iff (t : Transfer) (isWrite : Bool) (prpPfn : Option Nat)
    (answer : Nat → BStatus) :
    t.Right isWrite prpPfn answer ↔ (2 < t.mdl.numberPages → prpPfn = none →
        t.WholePages ∨ ∃ j < t.mdl.byteCount / pageSize, answer j ≠ .success) := by
  by_cases hls : 2 < t.mdl.numberPages → prpPfn ≠ none
  · refine iff_of_true ?_ fun htw hnn => absurd hnn (hls htw)
    obtain ⟨command, hrn, hds, hwr⟩ := t.perform_list isWrite answer hls
    have ha : t.transferred [command] = t.pairs := by
      rw [transferred, flatMap_singleton, hds]
    refine ⟨[command], answer 0, hrn, ha ▸ prefix_refl _, fun _ => ha, ?_⟩
    simpa using hwr
  · obtain ⟨htw, hnn⟩ : 2 < t.mdl.numberPages ∧ prpPfn = none := by simpa using hls
    obtain ⟨n, status, hlp, hc⟩ := t.pageByPage_spec isWrite answer
      (fun sent i => t.perform_page isWrite answer sent i) t.mdl.numberPages 0
    have hrn : t.perform isWrite prpPfn answer
        = some ((List.range n).map (t.pageCommand isWrite), status) := by
      unfold perform Controller.nvmePerformIoOperation
      rw [if_neg (Nat.not_lt.2 t.pages_le), hnn]
      simpa [htw] using hlp
    have hrg : t.Right isWrite prpPfn answer ↔ pageSize * n ≤ t.mdl.byteCount
        ∧ (status = .success → pageSize * n = t.mdl.byteCount) := by
      rw [Right, hrn]
      constructor
      · rintro ⟨sent, status', heq, hp, ha, -⟩
        cases heq
        exact ⟨(t.transferred_isPrefix_iff isWrite n).1 hp,
          fun h => (t.transferred_eq_pairs_iff isWrite n).1 (ha h)⟩
      · rintro ⟨hle, ha⟩
        refine ⟨_, _, rfl, (t.transferred_isPrefix_iff isWrite n).2 hle,
          fun h => (t.transferred_eq_pairs_iff isWrite n).2 (ha h), ?_⟩
        simp [pageCommand, readWriteCommand]
    rw [hrg]
    have hb : t.mdl.byteCount / pageSize ≤ t.mdl.numberPages := by
      unfold Mdl.numberPages pageSize
      omega
    rcases hc with ⟨hn, hst, ha⟩ | ⟨hst, hlt, hle, hla, ha⟩
    · -- every command succeeds, and there is one for each page
      have hn : n = t.mdl.numberPages := by omega
      rw [hn]
      constructor
      · intro h _ _
        exact .inl (t.wholePages_iff.1 (h.2 hst))
      · intro h
        have hw : t.WholePages := by
          refine (h htw hnn).resolve_right ?_
          rintro ⟨j, hj, hfl⟩
          have := ha j (by omega)
          rw [Nat.zero_add] at this
          exact hfl this
        have heq := t.wholePages_iff.2 hw
        exact ⟨heq.le, fun _ => heq⟩
    · -- the command before the n-th fails
      have hft : pageSize * n ≤ t.mdl.byteCount ↔ n - 1 < t.mdl.byteCount / pageSize := by
        rw [Nat.mul_comm, ← Nat.le_div_iff_mul_le (by decide)]
        omega
      rw [hft]
      constructor
      · intro h _ _
        exact .inr ⟨n - 1, h.1, hla⟩
      · intro h
        refine ⟨?_, fun h => absurd h hst⟩
        rcases h htw hnn with hw | ⟨j, hj, hfl⟩
        · have heq := t.wholePages_iff.2 hw
          have hdv : t.mdl.byteCount / pageSize = t.mdl.numberPages := by
            rw [← heq, Nat.mul_div_cancel_left _ (by decide)]
          omega
        · by_contra hge
          exact hfl (ha j (Nat.zero_le j) (by omega))

/-- Two pages' worth of bytes in three pages. -/
def acrossThree : Transfer where
  mdl := ⟨0x200, 0x2000, fun i => 16 + i, by decide⟩
  lba := 0
  blockSizeLog := 9
  blockSizeLog_ge := by decide
  blockSizeLog_le := by decide
  aligned := by decide
  nonempty := by decide
  pages_le := by decide
  blocks_le := by decide

/-- Without a page for the list three pages' worth of bytes are read into them. -/
theorem fallback_reads_too_much :
    ¬ ∀ (t : Transfer) (isWrite : Bool) (prpPfn : Option Nat) (answer : Nat → BStatus),
      t.Right isWrite prpPfn answer := by
  intro h
  obtain ⟨sent, status, hrn, hp, -⟩ := h acrossThree false none fun _ => .success
  have hh : acrossThree.perform false none (fun _ => .success)
      = some ((List.range 3).map (acrossThree.pageCommand false), .success) := by decide +kernel
  rw [hh] at hrn
  cases hrn
  have hle := (acrossThree.transferred_isPrefix_iff false 3).1 hp
  exact absurd hle (by decide)

end Transfer

end Boron.Nvme
