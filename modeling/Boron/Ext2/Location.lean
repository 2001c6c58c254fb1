import Boron.Ext2.Inode

/-! # Where the inodes are (`ext2fs/mount.c`, `ext2fs/inode.c`)

`Ext2Mount` takes the geometry of a volume from its superblock, whose fields are whatever the disk
holds, and `Ext2OpenInode` computes from it which block group descriptor and which inode to read. The
arithmetic is that of the C code: a division by zero or a shift by the width of the type or more is a
`fault`, and products are cut to 32 bits where the code's are. -/

namespace Boron.Ext2

/-- The fields of an `EXT2_SUPERBLOCK` that the driver reads. -/
structure SuperBlock where
  inodeCount : UInt32
  blockSizeLog2 : UInt32
  fragmentSizeLog2 : UInt32
  blocksPerGroup : UInt32
  inodesPerGroup : UInt32
  ext2Signature : UInt16
  version : UInt32
  firstNonReservedInode : UInt32
  inodeStructureSize : UInt16
  compatibleFeatures : UInt32
  incompatibleFeatures : UInt32
  readOnlyFeatures : UInt32
  deriving DecidableEq

inductive Fault
  | divideByZero
  | shiftTooFar
  deriving DecidableEq

/-- Why a call ends without a result. -/
inductive Stop
  | status (s : BStatus)
  | fault (f : Fault)
  deriving DecidableEq

/-- The geometry of an `EXT2_FILE_SYSTEM`; the `int` fields hold their 32 bits. -/
structure Volume where
  superBlock : SuperBlock
  forceReadOnly : Bool
  firstInode : Nat
  inodeSize : Nat
  blockSizeLog2 : Nat
  blockSize : Nat
  fragmentSize : Nat
  inodesPerGroup : Nat
  blocksPerGroup : Nat
  deriving DecidableEq

/-- `EXT2_SIGNATURE`. -/
def signature : UInt16 := 0xEF53

/-- `EXT2_REQ_UNSUPPORTED_FLAGS`. -/
def requiredUnsupported : UInt32 := 0xFFFFFFFD

/-- `EXT2_ROF_UNSUPPORTED_FLAGS`. -/
def readOnlyUnsupported : UInt32 := 0xFFFFFFFC

/-- `STATUS_NOT_THIS_FILE_SYSTEM`. -/
def notThisFileSystem : BStatus := .other 0

/-- `STATUS_UNIMPLEMENTED`. -/
def unimplemented : BStatus := .other 1

/-- `1024 << n` on an `int`. -/
def shift1024 (n : Nat) : Except Stop Nat :=
  if n < 32 then .ok (1024 * 2 ^ n % 2 ^ 32) else .error (.fault .shiftTooFar)

/-- `Ext2Mount` up to the root inode. -/
def ext2Mount (sb : SuperBlock) : Except Stop Volume := do
  if sb.ext2Signature ≠ signature then throw (.status notThisFileSystem)
  if 1 ≤ sb.version ∧ sb.incompatibleFeatures &&& requiredUnsupported ≠ 0 then
    throw (.status unimplemented)
  let blockSize ← shift1024 sb.blockSizeLog2.toNat
  let fragmentSize ← shift1024 sb.fragmentSizeLog2.toNat
  return {
    superBlock := sb
    forceReadOnly := 1 ≤ sb.version ∧ sb.readOnlyFeatures &&& readOnlyUnsupported ≠ 0
    firstInode := if 1 ≤ sb.version then sb.firstNonReservedInode.toNat else 11
    inodeSize := if 1 ≤ sb.version then sb.inodeStructureSize.toNat else 128
    blockSizeLog2 := (10 + sb.blockSizeLog2.toNat) % 2 ^ 32
    blockSize := blockSize
    fragmentSize := fragmentSize
    inodesPerGroup := sb.inodesPerGroup.toNat
    blocksPerGroup := sb.blocksPerGroup.toNat }

/-- The device addresses that an inode is read from: that of its block group's descriptor, and its
own. -/
structure Location where
  descriptor : Nat
  inode : Nat
  deriving DecidableEq

/-- The inode table's block, from a block group descriptor on the device. -/
def inodeTableBlockId (image : Image) (descriptor : Nat) : Nat := image.word (descriptor + 8)

namespace Volume

def blockAddress (v : Volume) (block : Nat) : Except Stop Nat :=
  if v.blockSizeLog2 < 64 then .ok (block * 2 ^ v.blockSizeLog2 % 2 ^ 64)
  else .error (.fault .shiftTooFar)

/-- The address that `Ext2ReadBlockGroupDescriptor` reads from. -/
def descriptorAddress (v : Volume) (blockGroup : Nat) : Nat :=
  (if v.blockSize = 1024 then 2048 else 1024) + blockGroup * 32

def ext2ReadInode (v : Volume) (image : Image) (inodeNumber : Nat) : Except Stop Location := do
  if inodeNumber = 0 then throw (.status .invalidParameter)
  let inodeNo := inodeNumber - 1
  let inodesPerGroup := v.superBlock.inodesPerGroup.toNat
  if inodesPerGroup = 0 then throw (.fault .divideByZero)
  let blockGroup := inodeNo / inodesPerGroup
  let descriptor := v.descriptorAddress blockGroup
  let inodeTableAddr := inodeTableBlockId image descriptor
  let inodeTableIndex := inodeNo % inodesPerGroup
  let address ← v.blockAddress inodeTableAddr
  return ⟨descriptor, (address + inodeTableIndex * v.inodeSize % 2 ^ 32) % 2 ^ 64⟩

/-- `Ext2OpenInode`, for an inode that is not in memory. -/
def ext2OpenInode (v : Volume) (image : Image) (inodeNumber : Nat) : Except Stop Location :=
  if v.superBlock.inodeCount.toNat ≤ inodeNumber then .error (.status .invalidParameter)
  else v.ext2ReadInode image inodeNumber

end Volume

/-! ## The format -/

namespace SuperBlock

variable (sb : SuperBlock)

/-- The checks that `Ext2Mount` makes. -/
def Accepted : Prop :=
  sb.ext2Signature = signature ∧
    ¬ (1 ≤ sb.version ∧ sb.incompatibleFeatures &&& requiredUnsupported ≠ 0)

instance : Decidable sb.Accepted := inferInstanceAs (Decidable (_ ∧ _))

def blockSize : Nat := 1024 * 2 ^ sb.blockSizeLog2.toNat

def inodeSize : Nat := if 1 ≤ sb.version then sb.inodeStructureSize.toNat else 128

/-- The format has the table of block group descriptors in the block after the one that holds the
superblock, which is 1024 bytes into the volume, and the inodes of a group one after the other from
the block on that its descriptor names. -/
def locate (image : Image) (inodeNumber : Nat) : Location :=
  let table := (1024 / sb.blockSize + 1) * sb.blockSize
  let descriptor := table + (inodeNumber - 1) / sb.inodesPerGroup.toNat * 32
  let index := (inodeNumber - 1) % sb.inodesPerGroup.toNat
  ⟨descriptor, inodeTableBlockId image descriptor * sb.blockSize + index * sb.inodeSize⟩

/-- The volume is mounted without a fault, and an inode number is looked for where the format has it
or, if there is no such inode, refused. -/
def Locates (image : Image) (inodeNumber : Nat) : Prop :=
  ∃ v, ext2Mount sb = .ok v ∧
    (1 ≤ inodeNumber ∧ inodeNumber ≤ sb.inodeCount.toNat →
      v.ext2OpenInode image inodeNumber = .ok (sb.locate image inodeNumber)) ∧
    (¬ (1 ≤ inodeNumber ∧ inodeNumber ≤ sb.inodeCount.toNat) →
      ∃ s, v.ext2OpenInode image inodeNumber = .error (.status s))

/-- The inode's number is not the last, the volume has blocks of 1024 bytes and inodes in its
groups, and the inode's offset in its table fits in 32 bits. -/
def Plain (inodeNumber : Nat) : Prop :=
  inodeNumber < sb.inodeCount.toNat ∧ sb.blockSizeLog2 = 0 ∧ sb.inodesPerGroup ≠ 0 ∧
    (inodeNumber - 1) % sb.inodesPerGroup.toNat * sb.inodeSize < 2 ^ 32

/-! ## Mounting -/

variable {sb}

/-- What `Ext2Mount` makes of a superblock that it can compute with. -/
def volume (sb : SuperBlock) : Volume where
  superBlock := sb
  forceReadOnly := 1 ≤ sb.version ∧ sb.readOnlyFeatures &&& readOnlyUnsupported ≠ 0
  firstInode := if 1 ≤ sb.version then sb.firstNonReservedInode.toNat else 11
  inodeSize := sb.inodeSize
  blockSizeLog2 := (10 + sb.blockSizeLog2.toNat) % 2 ^ 32
  blockSize := sb.blockSize % 2 ^ 32
  fragmentSize := 1024 * 2 ^ sb.fragmentSizeLog2.toNat % 2 ^ 32
  inodesPerGroup := sb.inodesPerGroup.toNat
  blocksPerGroup := sb.blocksPerGroup.toNat

/-- An accepted superblock is mounted if neither shift goes too far. -/
theorem ext2Mount_eq_ok_iff (h : sb.Accepted) (v : Volume) : ext2Mount sb = .ok v ↔
      (sb.blockSizeLog2.toNat < 32 ∧ sb.fragmentSizeLog2.toNat < 32) ∧ v = sb.volume := by
  have hmn : ext2Mount sb = (shift1024 sb.blockSizeLog2.toNat).bind fun bs =>
      (shift1024 sb.fragmentSizeLog2.toNat).bind fun fs =>
        .ok { sb.volume with blockSize := bs, fragmentSize := fs } := by
    simp only [ext2Mount, if_neg (not_not.2 h.1), if_neg h.2]
    rfl
  rw [hmn]
  by_cases hb : sb.blockSizeLog2.toNat < 32
  · by_cases hfr : sb.fragmentSizeLog2.toNat < 32
    · simp only [shift1024, if_pos hb, if_pos hfr, Except.bind, Except.ok.injEq]
      exact ⟨fun hv => ⟨⟨hb, hfr⟩, hv.symm⟩, fun hv => hv.2.symm⟩
    · simp [shift1024, if_pos hb, Except.bind, hfr]
  · simp [shift1024, Except.bind, hb]

/-! ## Opening an inode -/

/-- A 32-bit number of the device is one. -/
theorem word_lt (image : Image) (adr : Nat) : image.word adr < 2 ^ 32 := by
  have h0 := (image adr).toNat_lt
  have h1 := (image (adr + 1)).toNat_lt
  have h2 := (image (adr + 2)).toNat_lt
  have h3 := (image (adr + 3)).toNat_lt
  rw [Image.word]
  omega

theorem ext2OpenInode_refused (image : Image) {n : Nat} (h : ¬ (1 ≤ n ∧ n ≤ sb.inodeCount.toNat)) :
    sb.volume.ext2OpenInode image n = .error (.status .invalidParameter) := by
  rw [Volume.ext2OpenInode]
  by_cases hcount : sb.inodeCount.toNat ≤ n
  · rw [if_pos (show sb.volume.superBlock.inodeCount.toNat ≤ n from hcount)]
  · rw [if_neg (show ¬ sb.volume.superBlock.inodeCount.toNat ≤ n from hcount)]
    obtain rfl : n = 0 := by omega
    rfl

/-- What the driver computes for a number that it does not refuse. -/
theorem ext2OpenInode_eq (image : Image) {n : Nat} (hn : 1 ≤ n) (hcount : n < sb.inodeCount.toNat)
    (hgr : sb.inodesPerGroup.toNat ≠ 0) :
    sb.volume.ext2OpenInode image n = (sb.volume.blockAddress (inodeTableBlockId image
          (sb.volume.descriptorAddress ((n - 1) / sb.inodesPerGroup.toNat)))).map fun adr =>
        ⟨sb.volume.descriptorAddress ((n - 1) / sb.inodesPerGroup.toNat),
          (adr + (n - 1) % sb.inodesPerGroup.toNat * sb.inodeSize % 2 ^ 32) % 2 ^ 64⟩ := by
  rw [Volume.ext2OpenInode,
    if_neg (show ¬ sb.volume.superBlock.inodeCount.toNat ≤ n from Nat.not_le.2 hcount)]
  simp only [Volume.ext2ReadInode, if_neg (show ¬ n = 0 by omega),
    if_neg (show ¬ sb.volume.superBlock.inodesPerGroup.toNat = 0 from hgr)]
  rfl

/-- The driver has the descriptors where the format has them in volumes of 1024-byte blocks only. -/
theorem descriptorAddress_eq_iff (image : Image) (n : Nat) :
    sb.volume.descriptorAddress ((n - 1) / sb.inodesPerGroup.toNat)
        = (sb.locate image n).descriptor ↔ sb.blockSizeLog2 = 0 := by
  have hz : sb.blockSizeLog2 = 0 ↔ sb.blockSizeLog2.toNat = 0 := by
    rw [← UInt32.toNat_inj]
    rfl
  simp only [Volume.descriptorAddress, locate, volume, Nat.add_right_cancel_iff]
  rw [hz]
  rcases Nat.eq_zero_or_pos sb.blockSizeLog2.toNat with hlg | hlg
  · simp [blockSize, hlg]
  · -- With larger blocks the superblock is in block 0 and its table in block 1.
    have hlr : 2048 ≤ sb.blockSize := by
      have : 2 ^ 1 ≤ 2 ^ sb.blockSizeLog2.toNat := Nat.pow_le_pow_right (by decide) hlg
      rw [blockSize]
      omega
    have hdv : 1024 / sb.blockSize = 0 := Nat.div_eq_of_lt (by omega)
    rw [hdv, Nat.zero_add, Nat.one_mul]
    refine ⟨fun h => ?_, fun h => by omega⟩
    by_cases hsize : sb.blockSize % 2 ^ 32 = 1024
    · simp only [hsize, ↓reduceIte] at h
      rw [← h] at hsize
      exact absurd hsize (by decide)
    · simp only [hsize, ↓reduceIte] at h
      omega

/-- In such volumes the driver finds the inode if its offset in the table is not cut short. -/
theorem ext2OpenInode_right_iff (image : Image) {n : Nat} (hn : 1 ≤ n) (hlg : sb.blockSizeLog2 = 0)
    (hcount : n < sb.inodeCount.toNat) (hgr : sb.inodesPerGroup.toNat ≠ 0) :
    sb.volume.ext2OpenInode image n = .ok (sb.locate image n) ↔
      (n - 1) % sb.inodesPerGroup.toNat * sb.inodeSize < 2 ^ 32 := by
  have hz : sb.blockSizeLog2.toNat = 0 := by
    rw [hlg]
    rfl
  have hds := (descriptorAddress_eq_iff image n).2 hlg
  rw [ext2OpenInode_eq image hn hcount hgr, hds]
  have hsize : sb.blockSize = 1024 := by
    rw [blockSize, hz]
    rfl
  have hw := word_lt image ((sb.locate image n).descriptor + 8)
  have ha : sb.volume.blockAddress (inodeTableBlockId image (sb.locate image n).descriptor)
      = .ok (inodeTableBlockId image (sb.locate image n).descriptor * 1024) := by
    have hh : sb.volume.blockSizeLog2 = 10 := by
      show (10 + sb.blockSizeLog2.toNat) % 2 ^ 32 = 10
      omega
    rw [Volume.blockAddress, hh, if_pos (by decide)]
    refine congrArg Except.ok (Nat.mod_eq_of_lt ?_)
    rw [inodeTableBlockId]
    omega
  rw [ha]
  have hin : (sb.locate image n).inode = inodeTableBlockId image (sb.locate image n).descriptor * 1024
        + (n - 1) % sb.inodesPerGroup.toNat * sb.inodeSize := by
    simp only [locate, hsize]
  generalize hp : (n - 1) % sb.inodesPerGroup.toNat * sb.inodeSize = p at hin ⊢
  rw [← inodeTableBlockId] at hw
  simp only [Except.map, Except.ok.injEq]
  constructor
  · intro h
    have := congrArg Location.inode h
    rw [hin] at this
    dsimp only at this
    omega
  · intro h
    have heq : (inodeTableBlockId image (sb.locate image n).descriptor * 1024 + p % 2 ^ 32) % 2 ^ 64
        = (sb.locate image n).inode := by
      rw [hin]
      omega
    rw [heq]

/-- **Inodes are found where the format has them** exactly in this case. -/
theorem locates_iff (h : sb.Accepted) (image : Image) (n : Nat) : sb.Locates image n ↔
      sb.blockSizeLog2.toNat < 32 ∧ sb.fragmentSizeLog2.toNat < 32 ∧
        (1 ≤ n ∧ n ≤ sb.inodeCount.toNat → sb.Plain n) := by
  have hgu : sb.inodesPerGroup ≠ 0 ↔ sb.inodesPerGroup.toNat ≠ 0 := by
    rw [Ne, Ne, ← UInt32.toNat_inj]
    rfl
  constructor
  · rintro ⟨v, hv, hin, -⟩
    obtain ⟨⟨hb, hfr⟩, rfl⟩ := (ext2Mount_eq_ok_iff h v).1 hv
    refine ⟨hb, hfr, fun hrn => ?_⟩
    have hon := hin hrn
    have hcount : n < sb.inodeCount.toNat := by
      by_contra hls
      rw [Volume.ext2OpenInode, if_pos
        (show sb.volume.superBlock.inodeCount.toNat ≤ n from Nat.not_lt.1 hls)] at hon
      cases hon
    have hgr : sb.inodesPerGroup.toNat ≠ 0 := by
      intro hz
      rw [Volume.ext2OpenInode,
        if_neg (show ¬ sb.volume.superBlock.inodeCount.toNat ≤ n from Nat.not_le.2 hcount)] at hon
      simp only [Volume.ext2ReadInode, if_neg (show ¬ n = 0 by omega),
        if_pos (show sb.volume.superBlock.inodesPerGroup.toNat = 0 from hz)] at hon
      cases hon
    have hlg : sb.blockSizeLog2 = 0 := by
      rw [ext2OpenInode_eq image hrn.1 hcount hgr] at hon
      refine (descriptorAddress_eq_iff image n).1 ?_
      cases ha : sb.volume.blockAddress (inodeTableBlockId image
          (sb.volume.descriptorAddress ((n - 1) / sb.inodesPerGroup.toNat))) with
      | error stop =>
        rw [ha] at hon
        cases hon
      | ok address =>
        rw [ha] at hon
        exact congrArg Location.descriptor (Except.ok.inj hon)
    exact ⟨hcount, hlg, hgu.2 hgr, (ext2OpenInode_right_iff image hrn.1 hlg hcount hgr).1 hon⟩
  · rintro ⟨hb, hfr, hp⟩
    refine ⟨sb.volume, (ext2Mount_eq_ok_iff h _).2 ⟨⟨hb, hfr⟩, rfl⟩, fun hrn => ?_,
      fun hot => ⟨_, ext2OpenInode_refused image hot⟩⟩
    obtain ⟨hcount, hlg, hgr, hpr⟩ := hp hrn
    exact (ext2OpenInode_right_iff image hrn.1 hlg hcount (hgu.1 hgr)).2 hpr

/-- A volume of 1024-byte blocks, with 2048 inodes of 128 bytes in each group. -/
def smallVolume : SuperBlock :=
  ⟨8192, 0, 0, 8192, 2048, 0xEF53, 1, 11, 128, 0, 2, 0⟩

/-- Its root inode is found. -/
theorem locates_iff_root : smallVolume.Accepted ∧ smallVolume.Locates (fun _ => 0) 2 :=
  ⟨by decide, (locates_iff (by decide) (fun _ => 0) 2).2
    ⟨by decide, by decide, fun _ => ⟨by decide, by decide, by decide, by decide⟩⟩⟩

/-- With blocks of 4096 bytes the root inode is looked for through the superblock, as if that were a
block group descriptor. -/
theorem not_locates :
    ¬ ∀ (sb : SuperBlock) (image : Image) (n : Nat), sb.Accepted → sb.Locates image n := by
  intro h
  have hrt := h { smallVolume with blockSizeLog2 := 2 } (fun _ => 0) 2 (by decide)
  obtain ⟨-, -, hp⟩ := (locates_iff (by decide) _ _).1 hrt
  exact absurd (hp (by decide)).2.1 (by decide)

end SuperBlock

end Boron.Ext2
