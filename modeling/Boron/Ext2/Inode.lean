import Boron.Io.Mdl

/-! # Files of an ext2 volume (`ext2fs/inode.c`)

The blocks of a file are named by its inode: twelve directly, the others through trees of blocks that
hold the numbers of further blocks. `Ext2FindOnDiskBlock` follows these to one block of the file, and
`Ext2Read` copies block after block to the caller's buffer. A block number of zero stands for a hole.

The volume's device is its image, and reads from it succeed. Sizes are those of the 64-bit build. -/

namespace Boron.Ext2

open Boron.Io (Byte Mdl)

inductive BStatus
  | success
  | invalidParameter
  | insufficientMemory
  | insufficientSpace
  | other (code : Nat)
  deriving DecidableEq

/-- A volume with a block size that the format allows. -/
structure FileSystem where
  version : Nat
  blockSizeLog2 : Nat
  least : 10 ≤ blockSizeLog2
  most : blockSizeLog2 ≤ 16

/-- The fields of an `EXT2_INODE` that say what the file contains; all are 32 bits wide. -/
structure Inode where
  size : Nat
  sizeUpper : Nat
  directBlockPointer : Nat → Nat
  singlyIndirectBlockPointer : Nat
  doublyIndirectBlockPointer : Nat
  triplyIndirectBlockPointer : Nat

/-- The bytes of the device. -/
abbrev Image := Nat → Byte

/-- A 32-bit number of the device, least byte first. -/
def Image.word (image : Image) (address : Nat) : Nat :=
  (image address).toNat + 2 ^ 8 * (image (address + 1)).toNat
    + 2 ^ 16 * (image (address + 2)).toNat + 2 ^ 24 * (image (address + 3)).toNat

namespace FileSystem

variable (fs : FileSystem)

def blockSize : Nat := 2 ^ fs.blockSizeLog2

def addrsPerBlock : Nat := fs.blockSize / 4

def blockAddress (block : Nat) : Nat := block * 2 ^ fs.blockSizeLog2

def ext2FileSize (inode : Inode) : Nat :=
  if fs.version = 0 then inode.size else inode.size + 2 ^ 32 * inode.sizeUpper

/-- The entry `i` of a block of block numbers. -/
def entry (image : Image) (block i : Nat) : Nat := image.word (fs.blockAddress block + 4 * i)

/-- `none`: the file cannot have that block (`STATUS_INSUFFICIENT_SPACE`). -/
def ext2FindOnDiskBlock (image : Image) (inode : Inode) (blockIndex : Nat) : Option Nat :=
  let addrsPerBlock := fs.addrsPerBlock
  if blockIndex < 12 then some (inode.directBlockPointer blockIndex)
  else
    let blockIndex := blockIndex - 12
    if blockIndex < addrsPerBlock then
      if inode.singlyIndirectBlockPointer = 0 then some 0
      else some (fs.entry image inode.singlyIndirectBlockPointer blockIndex)
    else
      let blockIndex := blockIndex - addrsPerBlock
      if blockIndex < addrsPerBlock * addrsPerBlock then
        if inode.doublyIndirectBlockPointer = 0 then some 0
        else
          let part1 := blockIndex / addrsPerBlock
          let part2 := blockIndex % addrsPerBlock
          let part1 := fs.entry image inode.doublyIndirectBlockPointer part1
          if part1 = 0 then some 0 else some (fs.entry image part1 part2)
      else
        let blockIndex := blockIndex - addrsPerBlock
        if blockIndex < addrsPerBlock * addrsPerBlock * addrsPerBlock then
          if inode.triplyIndirectBlockPointer = 0 then some 0
          else
            let part1 := blockIndex / addrsPerBlock / addrsPerBlock
            let part2 := blockIndex / addrsPerBlock % addrsPerBlock
            let part3 := blockIndex % addrsPerBlock
            let part1 := fs.entry image inode.triplyIndirectBlockPointer part1
            if part1 = 0 then some 0
            else
              let part2 := fs.entry image part1 part2
              if part2 = 0 then some 0 else some (fs.entry image part2 part3)
        else none

/-- The loop of `Ext2Read`. `status` is its local variable, which starts out undefined. -/
def readLoop (image : Image) (inode : Inode) :
    (fuel : Nat) → Mdl → BStatus → (offset mdlOffset bytesRead size : Nat) → Mdl × BStatus × Nat
  | 0, mdl, status, _, _, bytesRead, _ => (mdl, status, bytesRead)
  | fuel + 1, mdl, status, offset, mdlOffset, bytesRead, size =>
    if size = 0 then (mdl, status, bytesRead)
    else
      let blockIndex := offset / 2 ^ fs.blockSizeLog2 % 2 ^ 32
      match fs.ext2FindOnDiskBlock image inode blockIndex with
      | none => (mdl, .insufficientSpace, bytesRead)
      | some onDiskBlock =>
        let blockOffset := offset % fs.blockSize
        let bytesTillNext := fs.blockSize - blockOffset
        let copyAmount := if bytesTillNext < size then bytesTillNext else size
        let mdl :=
          if onDiskBlock ≠ 0 then
            let blockBuffer := readAt image (fs.blockAddress onDiskBlock) fs.blockSize
            mdl.mmCopyIntoMdl mdlOffset ((blockBuffer.drop blockOffset).take copyAmount)
          else mdl.mmSetIntoMdl mdlOffset 0 copyAmount
        readLoop image inode fuel mdl .success (offset + copyAmount) (mdlOffset + copyAmount)
          (bytesRead + copyAmount) (size - copyAmount)

/-- `Ext2Read`, with memory for its buffer. `undefined` is what its uninitialized `Status` holds, and
`bytesRead` what the status block held before. -/
def ext2Read (image : Image) (inode : Inode) (mdl : Mdl) (offset : Nat) (undefined : BStatus)
    (bytesRead : Nat) : Mdl × BStatus × Nat :=
  let size := mdl.byteCount
  let fileSize := fs.ext2FileSize inode
  if 2 ^ 64 ≤ size + offset then (mdl, .invalidParameter, bytesRead)
  else if fileSize ≤ offset then (mdl, .success, 0)
  else
    let size := if fileSize ≤ size + offset then fileSize - offset else size
    fs.readLoop image inode size mdl undefined offset 0 0 size

end FileSystem

end Boron.Ext2
