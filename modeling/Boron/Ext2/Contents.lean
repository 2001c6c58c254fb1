import Boron.Ext2.Inode
import Mathlib.Data.Set.Function

/-! # The contents of a file

The format lays the blocks of a file out in levels: 12 direct ones, then `A` through one block of
numbers, `A * A` through two and `A * A * A` through three, where a block holds `A` numbers. `place`
says where the number of each block is, and `fileByte` what the file contains. The driver agrees with
the format up to the last block of the second level (`find_eq`); past that it starts to count the
third level too early. -/

namespace Boron.Ext2

open List Option

open Boron.Io (Byte Mdl)

/-! ## The format -/

/-- The place of a block number: in the inode, or the entries on the way through one, two or three
blocks of numbers. -/
inductive Place
  | direct (i : Nat)
  | single (i : Nat)
  | double (i j : Nat)
  | triple (i j k : Nat)
  deriving DecidableEq

/-- The place of the number of the block `n` of a file. -/
def place (A n : Nat) : Place :=
  if n < 12 then .direct n
  else if n < 12 + A then .single (n - 12)
  else if n < 12 + A + A * A then .double ((n - (12 + A)) / A) ((n - (12 + A)) % A)
  else
    let m := n - (12 + A + A * A)
    .triple (m / A / A) (m / A % A) (m % A)

/-- How many blocks a file can have. -/
def capacity (A : Nat) : Nat := 12 + A + A * A + A * A * A

theorem place_injOn (A : Nat) : Set.InjOn (place A) {n | n < capacity A} := by
  intro n hnc m hc h
  rcases Nat.eq_zero_or_pos A with rfl | hA
  · have hn : n < 12 := hnc
    have hm : m < 12 := hc
    rw [place, place, if_pos hn, if_pos hm] at h
    exact Place.direct.inj h
  · have hn := Nat.div_add_mod (n - (12 + A)) A
    have hm := Nat.div_add_mod (m - (12 + A)) A
    have hn' := Nat.div_add_mod (n - (12 + A + A * A)) A
    have hm' := Nat.div_add_mod (m - (12 + A + A * A)) A
    have hn'' := Nat.div_add_mod ((n - (12 + A + A * A)) / A) A
    have hm'' := Nat.div_add_mod ((m - (12 + A + A * A)) / A) A
    simp only [place] at h
    split_ifs at h with h1 h2 h3 h4 h5 h6 h7 h8 h9
    · exact Place.direct.inj h
    · have := Place.single.inj h
      omega
    · obtain ⟨hi, hj⟩ := Place.double.inj h
      rw [hi, hj] at hn
      omega
    · obtain ⟨hi, hj, hk⟩ := Place.triple.inj h
      rw [hi, hj] at hn''
      rw [← hn'', hm'', hk] at hn'
      omega

namespace FileSystem

variable (fs : FileSystem)

/-- The entry `i` of a block of numbers, if there is one. -/
def follow (image : Image) (block i : Nat) : Nat := if block = 0 then 0 else fs.entry image block i

/-- The number that is at a place; zero is a hole, and so is all that would be reached through it. -/
def numberAt (image : Image) (inode : Inode) : Place → Nat
  | .direct i => inode.directBlockPointer i
  | .single i => fs.follow image inode.singlyIndirectBlockPointer i
  | .double i j => fs.follow image (fs.follow image inode.doublyIndirectBlockPointer i) j
  | .triple i j k =>
    fs.follow image (fs.follow image (fs.follow image inode.triplyIndirectBlockPointer i) j) k

/-- The byte at an offset of a block; a hole is all zeros. -/
def blockByte (image : Image) (block offset : Nat) : Byte :=
  if block = 0 then 0 else image (fs.blockAddress block + offset)

/-- The byte at an offset of the file. -/
def fileByte (image : Image) (inode : Inode) (offset : Nat) : Byte :=
  fs.blockByte image (fs.numberAt image inode (place fs.addrsPerBlock (offset / fs.blockSize)))
    (offset % fs.blockSize)

/-- The number of bytes that a read of `length` bytes at `offset` is to return. -/
def readCount (inode : Inode) (offset length : Nat) : Nat :=
  min (offset + length) (fs.ext2FileSize inode) - offset

/-- A read stores the file's bytes, stores nothing else and reports how many there were. -/
def ReadsRight (image : Image) (inode : Inode) (mdl : Mdl) (offset : Nat)
    (result : Mdl × BStatus × Nat) : Prop :=
  result.1.byteAt = writeAt mdl.byteAt mdl.byteOffset
      (readAt (fs.fileByte image inode) offset (fs.readCount inode offset mdl.byteCount)) ∧
    result.1.byteOffset = mdl.byteOffset ∧ result.1.byteCount = mdl.byteCount ∧
    result.2.2 = fs.readCount inode offset mdl.byteCount

/-! ## Finding a block -/

variable {fs}

theorem blockSize_eq : fs.blockSize = 4 * fs.addrsPerBlock := by
  have hdv : 4 ∣ fs.blockSize := by
    have := fs.least
    exact Nat.pow_dvd_pow 2 (show 2 ≤ fs.blockSizeLog2 by omega)
  exact (Nat.mul_div_cancel' hdv).symm

theorem addrsPerBlock_eq : fs.addrsPerBlock = 2 ^ (fs.blockSizeLog2 - 2) := by
  have hlg : fs.blockSizeLog2 = fs.blockSizeLog2 - 2 + 2 := by
    have := fs.least
    omega
  rw [addrsPerBlock, blockSize, hlg, Nat.pow_add, Nat.add_sub_cancel]
  exact Nat.mul_div_cancel _ (by decide)

theorem addrsPerBlock_bounds : 2 ^ 8 ≤ fs.addrsPerBlock ∧ fs.addrsPerBlock ≤ 2 ^ 14 := by
  have hls := fs.least
  have hms := fs.most
  rw [addrsPerBlock_eq]
  exact ⟨Nat.pow_le_pow_right (by decide) (by omega), Nat.pow_le_pow_right (by decide) (by omega)⟩

/-- Up to the end of the second level the driver finds the block where the format has it. -/
theorem find_eq (image : Image) (inode : Inode) {n : Nat}
    (h : n < 12 + fs.addrsPerBlock + fs.addrsPerBlock * fs.addrsPerBlock) :
    fs.ext2FindOnDiskBlock image inode n
      = some (fs.numberAt image inode (place fs.addrsPerBlock n)) := by
  simp only [ext2FindOnDiskBlock, place]
  by_cases hdr : n < 12
  · simp only [if_pos hdr, numberAt]
  by_cases hsn : n < 12 + fs.addrsPerBlock
  · simp only [if_neg hdr, if_pos hsn, if_pos (show n - 12 < fs.addrsPerBlock by omega),
      numberAt, follow]
    split <;> rfl
  · have hrs : n - 12 - fs.addrsPerBlock = n - (12 + fs.addrsPerBlock) := by omega
    simp only [if_neg hdr, if_neg hsn, if_neg (show ¬ n - 12 < fs.addrsPerBlock by omega),
      if_pos h, hrs,
      if_pos (show n - (12 + fs.addrsPerBlock) < fs.addrsPerBlock * fs.addrsPerBlock by omega),
      numberAt, follow]
    split
    · rfl
    · split <;> rfl

/-- Past that end the driver is `A * A - A` blocks too far into the third level. -/
theorem find_past (image : Image) (inode : Inode) {n b : Nat}
    (hn : n = 12 + fs.addrsPerBlock + fs.addrsPerBlock + b)
    (hp : fs.addrsPerBlock * fs.addrsPerBlock ≤ fs.addrsPerBlock + b) :
    fs.ext2FindOnDiskBlock image inode n
      = if b < fs.addrsPerBlock * fs.addrsPerBlock * fs.addrsPerBlock then
          some (fs.numberAt image inode (.triple (b / fs.addrsPerBlock / fs.addrsPerBlock)
            (b / fs.addrsPerBlock % fs.addrsPerBlock) (b % fs.addrsPerBlock)))
        else none := by
  have hfs : n - 12 - fs.addrsPerBlock = fs.addrsPerBlock + b := by omega
  have hsn : fs.addrsPerBlock + b - fs.addrsPerBlock = b := by omega
  simp only [ext2FindOnDiskBlock, if_neg (show ¬ n < 12 by omega),
    if_neg (show ¬ n - 12 < fs.addrsPerBlock by omega), hfs, hsn,
    if_neg (Nat.not_lt.2 hp), numberAt, follow]
  split
  · split
    · rfl
    · split
      · rfl
      · split <;> rfl
  · rfl

/-! ## Reading block after block -/

theorem blockSize_pos : 0 < fs.blockSize := Nat.two_pow_pos _

variable {offset : Nat}

theorem within_block {n k : Nat} (hn : offset % fs.blockSize + n ≤ fs.blockSize) (hk : k < n) :
    (offset + k) / fs.blockSize = offset / fs.blockSize ∧
      (offset + k) % fs.blockSize = offset % fs.blockSize + k := by
  have hof := Nat.div_add_mod offset fs.blockSize
  have hdv : (offset + k) / fs.blockSize = offset / fs.blockSize := by
    refine Nat.div_eq_of_lt_le ?_ ?_ <;> rw [Nat.mul_comm]
    · omega
    · rw [Nat.mul_add, Nat.mul_one]
      omega
  refine ⟨hdv, ?_⟩
  have := Nat.div_add_mod (offset + k) fs.blockSize
  rw [hdv] at this
  omega

theorem byteAt_store (image : Image) (mdl : Mdl) (mo block : Nat) {bo n : Nat}
    (h : bo + n ≤ fs.blockSize) :
    (if block ≠ 0 then
        mdl.mmCopyIntoMdl mo (((readAt image (fs.blockAddress block) fs.blockSize).drop bo).take n)
      else mdl.mmSetIntoMdl mo 0 n)
      = mdl.mmCopyIntoMdl mo (readAt (fs.blockByte image block) bo n) := by
  by_cases hb : block = 0
  · rw [if_neg (not_not.2 hb), Mdl.mmSetIntoMdl_eq]
    congr 1
    refine ext_getElem (by simp) fun k hk hk' => ?_
    rw [getElem_readAt, blockByte, if_pos hb, getElem_replicate]
  · rw [if_pos hb]
    congr 1
    refine ext_getElem (by simp; omega) fun k hk hk' => ?_
    rw [getElem_take, getElem_drop, getElem_readAt, getElem_readAt, blockByte, if_neg hb]

/-- The byte that the driver has for an offset of the file, if it has any. -/
def driverByte (fs : FileSystem) (image : Image) (inode : Inode) (offset : Nat) : Option Byte :=
  (fs.ext2FindOnDiskBlock image inode (offset / fs.blockSize % 2 ^ 32)).map fun block =>
    fs.blockByte image block (offset % fs.blockSize)

/-- One turn of the loop, if the driver finds the block: a piece is stored, the loop goes on behind
it. -/
theorem readLoop_succ {image : Image} {inode : Inode} (fuel : Nat) (mdl : Mdl) (st : BStatus) (mo br : Nat) {size block : Nat} (hsize : size ≠ 0)
    (hfn : fs.ext2FindOnDiskBlock image inode (offset / fs.blockSize % 2 ^ 32) = some block) :
    ∃ n, 0 < n ∧ n ≤ size ∧ offset % fs.blockSize + n ≤ fs.blockSize ∧
      fs.readLoop image inode (fuel + 1) mdl st offset mo br size = fs.readLoop image inode fuel
            (mdl.mmCopyIntoMdl mo (readAt (fs.blockByte image block) (offset % fs.blockSize) n))
            .success (offset + n) (mo + n) (br + n) (size - n) := by
  have hmd : offset % fs.blockSize < fs.blockSize := Nat.mod_lt _ blockSize_pos
  generalize hn : (if fs.blockSize - offset % fs.blockSize < size then
    fs.blockSize - offset % fs.blockSize else size) = n
  have hb : 0 < n ∧ n ≤ size ∧ offset % fs.blockSize + n ≤ fs.blockSize := by
    split at hn <;> omega
  refine ⟨n, hb.1, hb.2.1, hb.2.2, ?_⟩
  rw [readLoop, if_neg hsize]
  rw [blockSize] at hfn
  simp only [hfn, hn, byteAt_store image mdl mo block hb.2.2]

theorem readLoop_right (fs : FileSystem) (image : Image) (inode : Inode) (fuel : Nat) :
    ∀ (mdl : Mdl) (st : BStatus) (offset mo br size : Nat), size ≤ fuel →
      (∀ k < size, fs.driverByte image inode (offset + k)
        = some (fs.fileByte image inode (offset + k))) →
      (fs.readLoop image inode fuel mdl st offset mo br size).1.byteAt
          = writeAt mdl.byteAt (mdl.byteOffset + mo) (readAt (fs.fileByte image inode) offset size) ∧
        (fs.readLoop image inode fuel mdl st offset mo br size).1.byteOffset = mdl.byteOffset ∧
        (fs.readLoop image inode fuel mdl st offset mo br size).1.byteCount = mdl.byteCount ∧
        (fs.readLoop image inode fuel mdl st offset mo br size).2.2 = br + size := by
  induction fuel with
  | zero =>
    intro mdl st offset mo br size hfl _
    obtain rfl := Nat.le_zero.1 hfl
    exact ⟨(writeAt_nil ..).symm, rfl, rfl, rfl⟩
  | succ fuel ih =>
    intro mdl st offset mo br size hfl hrg
    by_cases hsize : size = 0
    · subst hsize
      rw [readLoop, if_pos rfl]
      exact ⟨(writeAt_nil ..).symm, rfl, rfl, rfl⟩
    · obtain ⟨block, hfn, hbe⟩ :=
        map_eq_some_iff.1 (hrg 0 (Nat.pos_of_ne_zero hsize))
      rw [Nat.add_zero] at hfn
      obtain ⟨n, hpos, hle, hb, hp⟩ :=
        readLoop_succ fuel mdl st mo br hsize hfn
      obtain ⟨m, rfl⟩ := Nat.exists_eq_add_of_le hle
      rw [hp, Nat.add_sub_cancel_left]
      -- The whole piece comes from the block of its first byte.
      have hc : readAt (fs.blockByte image block) (offset % fs.blockSize) n
          = readAt (fs.fileByte image inode) offset n := by
        refine readAt_congr fun k hk => ?_
        obtain ⟨hdv, hmd⟩ := within_block hb hk
        have hk' := hrg k (by omega)
        rw [driverByte, hdv, hmd] at hk'
        rw [hfn] at hk'
        exact some.inj hk'
      obtain ⟨hy, hof, hcount, hread⟩ := ih (mdl.mmCopyIntoMdl mo
          (readAt (fs.blockByte image block) (offset % fs.blockSize) n))
        .success (offset + n) (mo + n) (br + n) m (by omega)
        (fun k hk => by
          have := hrg (n + k) (by omega)
          rwa [← Nat.add_assoc] at this)
      refine ⟨?_, ?_, ?_, ?_⟩
      · rw [hy, Mdl.byteAt_mmCopyIntoMdl, Mdl.byteOffset_mmCopyIntoMdl, hc, readAt_add,
          ← writeAt_append, length_readAt, Nat.add_assoc]
      · rw [hof, Mdl.byteOffset_mmCopyIntoMdl]
      · rw [hcount, Mdl.byteCount_mmCopyIntoMdl]
      · rw [hread, Nat.add_assoc]

/-- In any case a byte of the buffer is what it was, or what the driver has for its offset. -/
theorem readLoop_byte (fs : FileSystem) (image : Image) (inode : Inode) (fuel : Nat) :
    ∀ (mdl : Mdl) (st : BStatus) (offset mo br size j : Nat),
      (fs.readLoop image inode fuel mdl st offset mo br size).1.byteAt j = mdl.byteAt j ∨
        ∃ k, j = mdl.byteOffset + mo + k ∧ fs.driverByte image inode (offset + k)
          = some ((fs.readLoop image inode fuel mdl st offset mo br size).1.byteAt j)
    := by
  induction fuel with
  | zero =>
    intro mdl st offset mo br size j
    exact .inl rfl
  | succ fuel ih =>
    intro mdl st offset mo br size j
    by_cases hsize : size = 0
    · rw [readLoop, if_pos hsize]
      exact .inl rfl
    cases hfn : fs.ext2FindOnDiskBlock image inode (offset / fs.blockSize % 2 ^ 32) with
    | none =>
      refine .inl ?_
      rw [blockSize] at hfn
      rw [readLoop, if_neg hsize]
      simp only [hfn]
    | some block =>
      obtain ⟨n, hpos, hle, hb, hp⟩ :=
        readLoop_succ fuel mdl st mo br hsize hfn
      rw [hp]
      rcases ih (mdl.mmCopyIntoMdl mo (readAt (fs.blockByte image block) (offset % fs.blockSize) n))
          .success (offset + n) (mo + n) (br + n) (size - n) j with hsm | hlr
      · rw [hsm, Mdl.byteAt_mmCopyIntoMdl]
        by_cases hin : mdl.byteOffset + mo ≤ j ∧ j < mdl.byteOffset + mo + n
        · have hk : j - (mdl.byteOffset + mo) < n := by omega
          refine .inr ⟨j - (mdl.byteOffset + mo), by omega, ?_⟩
          obtain ⟨hdv, hmd⟩ := within_block hb hk
          have hj : j = mdl.byteOffset + mo + (j - (mdl.byteOffset + mo)) := by
            omega
          conv_rhs => rw [hj]
          rw [writeAt_apply_of_lt (by rwa [length_readAt]), getElem_readAt, driverByte, hdv, hfn,
            hmd, map_some]
        · refine .inl (writeAt_apply_of_outside ?_)
          rw [length_readAt]
          omega
      · obtain ⟨k, hj, hy⟩ := hlr
        rw [Mdl.byteOffset_mmCopyIntoMdl] at hj
        refine .inr ⟨n + k, by omega, ?_⟩
        rwa [← Nat.add_assoc]

/-! ## A file that reaches the third level -/

/-- The device whose blocks hold the bytes that `f` says. -/
def blocks (fs : FileSystem) (f : Nat → Nat → Byte) : Image := fun address =>
  f (address / fs.blockSize) (address % fs.blockSize)

theorem blocks_apply (f : Nat → Nat → Byte) (block : Nat)
    (h : offset < fs.blockSize) : fs.blocks f (fs.blockAddress block + offset) = f block offset := by
  have hpos := fs.blockSize_pos
  rw [blockAddress, ← blockSize, blocks, Nat.add_comm, Nat.add_mul_div_right _ _ hpos,
    Nat.div_eq_of_lt h, Nat.zero_add, Nat.add_mul_mod_self_right, Nat.mod_eq_of_lt h]

variable {i : Nat}

theorem entry_blocks (f : Nat → Nat → Byte) (block : Nat) (h : i < fs.addrsPerBlock) :
    fs.entry (fs.blocks f) block i = (f block (4 * i)).toNat + 2 ^ 8 * (f block (4 * i + 1)).toNat
        + 2 ^ 16 * (f block (4 * i + 2)).toNat + 2 ^ 24 * (f block (4 * i + 3)).toNat := by
  have hsize := fs.blockSize_eq
  simp only [entry, Image.word, Nat.add_assoc (fs.blockAddress block)]
  rw [blocks_apply f block (by omega), blocks_apply f block (by omega),
    blocks_apply f block (by omega), blocks_apply f block (by omega)]

/-- Only the block that is `m` blocks into the third level has a number, and it is full of ones. -/
def thirdLevel (A m : Nat) : Nat → Nat → Byte
  | 1, offset => if offset = 4 * (m / A / A) then 2 else 0
  | 2, offset => if offset = 4 * (m / A % A) then 3 else 0
  | 3, offset => if offset % 4 = 0 then 4 else 0
  | 4, _ => 1
  | _, _ => 0

/-- An inode with a third level only. -/
def thirdLevelInode (size sizeUpper : Nat) : Inode := ⟨size, sizeUpper, fun _ => 0, 0, 0, 1⟩

theorem entry_one (f : Nat → Nat → Byte) (block p : Nat) (v : Byte)
    (hf : ∀ offset, f block offset = if offset = 4 * p then v else 0)
    (h : i < fs.addrsPerBlock) :
    fs.entry (fs.blocks f) block i = if i = p then v.toNat else 0 := by
  rw [entry_blocks _ _ h, hf, hf, hf, hf, if_neg (show ¬ 4 * i + 1 = 4 * p by omega),
    if_neg (show ¬ 4 * i + 2 = 4 * p by omega), if_neg (show ¬ 4 * i + 3 = 4 * p by omega)]
  by_cases hi : i = p
  · rw [if_pos (show 4 * i = 4 * p by omega), if_pos hi]
    simp
  · rw [if_neg (show ¬ 4 * i = 4 * p by omega), if_neg hi]
    simp

theorem entry_first {m : Nat} (h : i < fs.addrsPerBlock) :
    fs.entry (fs.blocks (thirdLevel fs.addrsPerBlock m)) 1 i
      = if i = m / fs.addrsPerBlock / fs.addrsPerBlock then 2 else 0 :=
  entry_one _ 1 _ 2 (fun _ => rfl) h

theorem entry_second {m : Nat} (h : i < fs.addrsPerBlock) :
    fs.entry (fs.blocks (thirdLevel fs.addrsPerBlock m)) 2 i
      = if i = m / fs.addrsPerBlock % fs.addrsPerBlock then 3 else 0 :=
  entry_one _ 2 _ 3 (fun _ => rfl) h

theorem entry_third {m : Nat} (h : i < fs.addrsPerBlock) :
    fs.entry (fs.blocks (thirdLevel fs.addrsPerBlock m)) 3 i = 4 := by
  rw [entry_blocks _ _ h]
  simp only [thirdLevel]
  rw [if_pos (by omega), if_neg (by omega), if_neg (by omega), if_neg (by omega)]
  rfl

variable {n m : Nat}

theorem numberAt_third (size su : Nat)
    (hn : n = 12 + fs.addrsPerBlock + fs.addrsPerBlock * fs.addrsPerBlock + m)
    (hm : m < fs.addrsPerBlock * fs.addrsPerBlock * fs.addrsPerBlock) :
    fs.numberAt (fs.blocks (thirdLevel fs.addrsPerBlock m)) (thirdLevelInode size su)
      (place fs.addrsPerBlock n) = 4 := by
  obtain ⟨hA, -⟩ := fs.addrsPerBlock_bounds
  have hpos : 0 < fs.addrsPerBlock := by omega
  have hfs : m / fs.addrsPerBlock / fs.addrsPerBlock < fs.addrsPerBlock := by
    rw [Nat.div_div_eq_div_mul]
    exact Nat.div_lt_of_lt_mul hm
  have hp : place fs.addrsPerBlock n = .triple (m / fs.addrsPerBlock / fs.addrsPerBlock)
      (m / fs.addrsPerBlock % fs.addrsPerBlock) (m % fs.addrsPerBlock) := by
    rw [place, if_neg (by omega), if_neg (by omega), if_neg (by omega), hn, Nat.add_sub_cancel_left]
  rw [hp]
  have hon : fs.follow (fs.blocks (thirdLevel fs.addrsPerBlock m)) 1
      (m / fs.addrsPerBlock / fs.addrsPerBlock) = 2 := by
    rw [follow, if_neg (by decide), entry_first hfs, if_pos rfl]
  have hw : fs.follow (fs.blocks (thirdLevel fs.addrsPerBlock m)) 2
      (m / fs.addrsPerBlock % fs.addrsPerBlock) = 3 := by
    rw [follow, if_neg (by decide), entry_second (Nat.mod_lt _ hpos), if_pos rfl]
  have hh : fs.follow (fs.blocks (thirdLevel fs.addrsPerBlock m)) 3 (m % fs.addrsPerBlock) = 4 := by
    rw [follow, if_neg (by decide), entry_third (Nat.mod_lt _ hpos)]
  rw [numberAt, thirdLevelInode, hon, hw, hh]

/-- The driver looks for it somewhere else, and finds a hole there or nothing. -/
theorem find_third (size su : Nat)
    (hn : n = 12 + fs.addrsPerBlock + fs.addrsPerBlock * fs.addrsPerBlock + m) :
    ∀ block, fs.ext2FindOnDiskBlock (fs.blocks (thirdLevel fs.addrsPerBlock m))
      (thirdLevelInode size su) (n % 2 ^ 32) = some block → block = 0 := by
  obtain ⟨hls, hms⟩ := fs.addrsPerBlock_bounds
  have hpos : 0 < fs.addrsPerBlock := by omega
  have hq : fs.addrsPerBlock * fs.addrsPerBlock ≤ 2 ^ 28 :=
    (Nat.mul_le_mul hms hms).trans (by decide)
  have hdb : 2 * fs.addrsPerBlock ≤ fs.addrsPerBlock * fs.addrsPerBlock :=
    Nat.mul_le_mul_right _ (by omega)
  intro block hfn
  by_cases hw : n % 2 ^ 32 < 12 + fs.addrsPerBlock + fs.addrsPerBlock * fs.addrsPerBlock
  · rw [find_eq _ _ hw] at hfn
    cases hfn
    unfold place
    split_ifs <;> rfl
  obtain ⟨b, hb⟩ := Nat.exists_eq_add_of_le
    (show 12 + fs.addrsPerBlock + fs.addrsPerBlock ≤ n % 2 ^ 32 by omega)
  rw [find_past _ _ hb (by omega)] at hfn
  by_cases hc : b < fs.addrsPerBlock * fs.addrsPerBlock * fs.addrsPerBlock
  · rw [if_pos hc] at hfn
    cases hfn
    have hfs : b / fs.addrsPerBlock / fs.addrsPerBlock < fs.addrsPerBlock := by
      rw [Nat.div_div_eq_div_mul]
      exact Nat.div_lt_of_lt_mul hc
    have hon : fs.follow (fs.blocks (thirdLevel fs.addrsPerBlock m)) 1
        (b / fs.addrsPerBlock / fs.addrsPerBlock)
        = if b / fs.addrsPerBlock / fs.addrsPerBlock = m / fs.addrsPerBlock / fs.addrsPerBlock
          then 2 else 0 := by
      rw [follow, if_neg (by decide), entry_first hfs]
    rw [numberAt, thirdLevelInode, hon]
    by_cases hdg : b / fs.addrsPerBlock / fs.addrsPerBlock = m / fs.addrsPerBlock / fs.addrsPerBlock
    · -- The other digit is wrong then: `b` and `m` are too far apart.
      have hother : b / fs.addrsPerBlock % fs.addrsPerBlock
          ≠ m / fs.addrsPerBlock % fs.addrsPerBlock := by
        intro hsm
        have hds : b / fs.addrsPerBlock = m / fs.addrsPerBlock := by
          rw [← Nat.div_add_mod (b / fs.addrsPerBlock) fs.addrsPerBlock, hdg, hsm, Nat.div_add_mod]
        have hbd := Nat.div_add_mod b fs.addrsPerBlock
        have hmv := Nat.div_add_mod m fs.addrsPerBlock
        have hbm := Nat.mod_lt b hpos
        have hmd := Nat.mod_lt m hpos
        rw [hds] at hbd
        omega
      have htw : fs.follow (fs.blocks (thirdLevel fs.addrsPerBlock m)) 2
          (b / fs.addrsPerBlock % fs.addrsPerBlock) = 0 := by
        rw [follow, if_neg (by decide), entry_second (Nat.mod_lt _ hpos), if_neg hother]
      rw [if_pos hdg, htw, follow, if_pos rfl]
    · rw [if_neg hdg]
      rfl
  · rw [if_neg hc] at hfn
    cases hfn

/-! ## Reads and finds -/

/-- The end of what the driver and the format agree on. -/
def reach (fs : FileSystem) : Nat :=
  (12 + fs.addrsPerBlock + fs.addrsPerBlock * fs.addrsPerBlock) * fs.blockSize

theorem driverByte_eq (image : Image) (inode : Inode) (h : offset < fs.reach) :
    fs.driverByte image inode offset = some (fs.fileByte image inode offset) := by
  have hb : offset / fs.blockSize < 12 + fs.addrsPerBlock + fs.addrsPerBlock * fs.addrsPerBlock :=
    Nat.div_lt_of_lt_mul (Nat.mul_comm _ _ ▸ h)
  obtain ⟨-, hms⟩ := fs.addrsPerBlock_bounds
  have hq : fs.addrsPerBlock * fs.addrsPerBlock ≤ 2 ^ 28 :=
    (Nat.mul_le_mul hms hms).trans (by decide)
  have hx : offset / fs.blockSize % 2 ^ 32 = offset / fs.blockSize :=
    Nat.mod_eq_of_lt (by omega)
  rw [driverByte, hx, find_eq image inode hb, map_some, fileByte]

theorem ext2Read_right (image : Image) (inode : Inode) (mdl : Mdl)
    (und : BStatus) (br : Nat) (hft : offset + mdl.byteCount < 2 ^ 64)
    (hc : fs.readCount inode offset mdl.byteCount = 0 ∨
      offset + fs.readCount inode offset mdl.byteCount ≤ fs.reach) :
    fs.ReadsRight image inode mdl offset (fs.ext2Read image inode mdl offset und br) := by
  rw [ext2Read, if_neg (by omega)]
  by_cases he : fs.ext2FileSize inode ≤ offset
  · have hcount : fs.readCount inode offset mdl.byteCount = 0 := by
      rw [readCount]
      omega
    rw [if_pos he, ReadsRight, hcount]
    exact ⟨(writeAt_nil ..).symm, rfl, rfl, rfl⟩
  · have hcount : (if fs.ext2FileSize inode ≤ mdl.byteCount + offset then
        fs.ext2FileSize inode - offset else mdl.byteCount)
        = fs.readCount inode offset mdl.byteCount := by
      rw [readCount]
      split <;> omega
    rw [if_neg he, hcount]
    obtain ⟨hb, hof, hsm, hread⟩ := fs.readLoop_right image inode
      (fs.readCount inode offset mdl.byteCount) mdl und offset 0 0
      (fs.readCount inode offset mdl.byteCount) (Nat.le_refl _)
      (fun k hk => driverByte_eq image inode (show offset + k < fs.reach by omega))
    exact ⟨hb, hof, hsm, by rw [hread, Nat.zero_add]⟩

theorem ext2Read_wrong (fs : FileSystem) (size su offset len : Nat) (hft : offset + len < 2 ^ 64)
    (hc : fs.ext2FileSize (thirdLevelInode size su) ≤ capacity fs.addrsPerBlock * fs.blockSize)
    (hso : fs.readCount (thirdLevelInode size su) offset len ≠ 0)
    (hp : fs.reach < offset + fs.readCount (thirdLevelInode size su) offset len) :
    ∃ image mdl, mdl.byteCount = len ∧ ∀ und br,
      ¬ fs.ReadsRight image (thirdLevelInode size su) mdl offset
        (fs.ext2Read image (thirdLevelInode size su) mdl offset und br) := by
  generalize hin : thirdLevelInode size su = inode at *
  -- The last byte of the read, and its block.
  obtain ⟨k, hk⟩ := Nat.exists_eq_add_one_of_ne_zero hso
  have hls : offset + k < fs.ext2FileSize inode := by
    rw [readCount] at hk
    omega
  generalize hn : (offset + k) / fs.blockSize = n
  have hw : 12 + fs.addrsPerBlock + fs.addrsPerBlock * fs.addrsPerBlock ≤ n := by
    rw [← hn, Nat.le_div_iff_mul_le fs.blockSize_pos]
    rw [reach] at hp
    omega
  have hh : n < capacity fs.addrsPerBlock := by
    rw [← hn]
    exact Nat.div_lt_of_lt_mul (Nat.mul_comm _ _ ▸ Nat.lt_of_lt_of_le hls hc)
  obtain ⟨m, hm⟩ := Nat.exists_eq_add_of_le hw
  have hth : m < fs.addrsPerBlock * fs.addrsPerBlock * fs.addrsPerBlock := by
    rw [capacity] at hh
    omega
  have hy : fs.fileByte (fs.blocks (thirdLevel fs.addrsPerBlock m)) inode (offset + k) = 1 := by
    rw [fileByte, hn, ← hin, numberAt_third size su hm hth, blockByte,
      if_neg (by decide), blocks_apply _ _ (Nat.mod_lt _ fs.blockSize_pos), thirdLevel]
  have hdv : ∀ b, fs.driverByte (fs.blocks (thirdLevel fs.addrsPerBlock m)) inode (offset + k)
      = some b → b = 0 := by
    intro b hb
    obtain ⟨block, hfn, rfl⟩ := map_eq_some_iff.1 hb
    rw [hn, ← hin] at hfn
    rw [find_third size su hm block hfn, blockByte, if_pos rfl]
  let mdl : Mdl := ⟨0, len, fun _ _ => 0⟩
  have hz : ∀ j, mdl.byteAt j = 0 := fun _ => rfl
  refine ⟨fs.blocks (thirdLevel fs.addrsPerBlock m), mdl, rfl, fun und br hrg => ?_⟩
  have hread := congrFun hrg.1 k
  have hwr : writeAt mdl.byteAt mdl.byteOffset
      (readAt (fs.fileByte (fs.blocks (thirdLevel fs.addrsPerBlock m)) inode) offset
        (fs.readCount inode offset mdl.byteCount)) k = 1 := by
    have hlt : k < (readAt (fs.fileByte (fs.blocks (thirdLevel fs.addrsPerBlock m)) inode) offset
        (fs.readCount inode offset mdl.byteCount)).length := by
      rw [length_readAt, show mdl.byteCount = len from rfl, hk]
      exact Nat.lt_succ_self k
    have ha : writeAt mdl.byteAt mdl.byteOffset
        (readAt (fs.fileByte (fs.blocks (thirdLevel fs.addrsPerBlock m)) inode) offset
          (fs.readCount inode offset mdl.byteCount)) (mdl.byteOffset + k) = _ :=
      writeAt_apply_of_lt hlt
    rw [show mdl.byteOffset + k = k from Nat.zero_add k, getElem_readAt, hy] at ha
    exact ha
  rw [hwr, ext2Read, if_neg (show ¬ 2 ^ 64 ≤ mdl.byteCount + offset from by
    show ¬ 2 ^ 64 ≤ len + offset
    omega), if_neg (by omega)] at hread
  rcases fs.readLoop_byte (fs.blocks (thirdLevel fs.addrsPerBlock m)) inode _ mdl und offset
    0 0 _ k with hsm | ⟨i, hi, hdr⟩
  · rw [hread, hz] at hsm
    exact absurd hsm (by decide)
  · obtain rfl : i = k := by
      have : mdl.byteOffset = 0 := rfl
      omega
    rw [hread] at hdr
    exact absurd (hdv _ hdr) (by decide)

/-- Two inodes of one size. -/
def SameSize (inode inode' : Inode) : Prop :=
  inode.size = inode'.size ∧ inode.sizeUpper = inode'.sizeUpper

theorem readCount_of_sameSize {inode inode' : Inode} (h : SameSize inode inode')
    (offset length : Nat) : fs.readCount inode offset length = fs.readCount inode' offset length := by
  rw [readCount, readCount, ext2FileSize, ext2FileSize, h.1, h.2]

/-- **The contents of a file.** Every file of a given size is read right at a given place if and only
if the place ends before the third level, every block is found where the format has it if and only
if it is not of the third level, and the format has no two blocks at one place. -/
theorem ext2Read_right_iff (fs : FileSystem) (inode : Inode) (offset length : Nat)
    (hfits : offset + length < 2 ^ 64)
    (hcapacity : fs.ext2FileSize inode ≤ capacity fs.addrsPerBlock * fs.blockSize) :
    ((∀ image inode' mdl undefined bytesRead, SameSize inode' inode → mdl.byteCount = length →
        fs.ReadsRight image inode' mdl offset
          (fs.ext2Read image inode' mdl offset undefined bytesRead)) ↔
      fs.readCount inode offset length = 0 ∨ offset + fs.readCount inode offset length ≤ fs.reach) ∧
    (∀ n, n < capacity fs.addrsPerBlock → n < 2 ^ 32 →
      ((∀ image inode', fs.ext2FindOnDiskBlock image inode' n
          = some (fs.numberAt image inode' (place fs.addrsPerBlock n))) ↔
        n < 12 + fs.addrsPerBlock + fs.addrsPerBlock * fs.addrsPerBlock)) ∧
    Set.InjOn (place fs.addrsPerBlock) {n | n < capacity fs.addrsPerBlock} := by
  refine ⟨⟨fun h => ?_, fun h => ?_⟩, ?_, place_injOn _⟩
  · by_contra hp
    have hsm : SameSize (thirdLevelInode inode.size inode.sizeUpper) inode := ⟨rfl, rfl⟩
    rw [not_or, Nat.not_le, ← readCount_of_sameSize hsm] at hp
    obtain ⟨image, mdl, hlength, hwr⟩ := fs.ext2Read_wrong inode.size inode.sizeUpper offset length
      hfits hcapacity hp.1 hp.2
    exact hwr .success 0 (h image _ mdl .success 0 hsm hlength)
  · intro image inode' mdl undefined bytesRead hsm hlength
    subst hlength
    rw [← readCount_of_sameSize hsm] at h
    exact ext2Read_right image inode' mdl undefined bytesRead hfits h
  · intro n hn hw
    constructor
    · intro h
      by_contra hp
      obtain ⟨m, hm⟩ := Nat.exists_eq_add_of_le (Nat.not_lt.1 hp)
      have hh : m < fs.addrsPerBlock * fs.addrsPerBlock * fs.addrsPerBlock := by
        rw [capacity] at hn
        omega
      have hfn := h (fs.blocks (thirdLevel fs.addrsPerBlock m)) (thirdLevelInode 0 0)
      rw [numberAt_third 0 0 hm hh] at hfn
      rw [← Nat.mod_eq_of_lt hw] at hfn
      exact absurd (find_third 0 0 hm 4 hfn) (by decide)
    · intro h image inode'
      exact find_eq image inode' h

/-- A volume with blocks of one kilobyte. -/
def kilobyteBlocks : FileSystem := ⟨1, 10, by decide, by decide⟩

/-- The first 5000 bytes of a file of 6000. -/
theorem ext2Read_right_iff_small : kilobyteBlocks.readCount (thirdLevelInode 6000 0) 0 5000 = 5000 ∧
    ∀ image inode mdl undefined bytesRead, SameSize inode (thirdLevelInode 6000 0) →
      mdl.byteCount = 5000 →
      kilobyteBlocks.ReadsRight image inode mdl 0
        (kilobyteBlocks.ext2Read image inode mdl 0 undefined bytesRead) :=
  ⟨by decide,
    (kilobyteBlocks.ext2Read_right_iff (thirdLevelInode 6000 0) 0 5000 (by decide) (by decide)).1.2
      (.inr (by decide))⟩

/-- With blocks of one kilobyte, the byte at offset 67383296 of a file that is one byte longer can
be read wrongly. -/
theorem ext2Read_not_right : ¬ ∀ (fs : FileSystem) image inode mdl offset undefined bytesRead,
      offset + mdl.byteCount < 2 ^ 64 →
      fs.ext2FileSize inode ≤ capacity fs.addrsPerBlock * fs.blockSize →
      fs.ReadsRight image inode mdl offset
        (fs.ext2Read image inode mdl offset undefined bytesRead) := by
  intro h
  obtain ⟨image, mdl, hlength, hw⟩ :=
    kilobyteBlocks.ext2Read_wrong 67383297 0 67383296 1 (by decide) (by decide) (by decide) (by decide)
  refine hw .success 0 (h kilobyteBlocks image _ mdl 67383296 .success 0 ?_ ?_)
  · rw [hlength]
    decide
  · decide

end FileSystem

end Boron.Ext2
