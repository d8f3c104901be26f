import ImgEditor.Core.Libcrc
import ImgEditor.Fs.Ext2
import ImgEditor.Fs.Ext2Backup
import ImgEditor.Storage.Checked
import ImgEditor.Storage.Record

namespace ImgEditor

open Storage

def EXT2_MAGIC : Nat := 0xEF53
def EXT2_MIN_BLOCK_LOG_SIZE : Nat := 10
def EXT2_ROOT_INO : Nat := 2
def SUPERBLOCK_START : Nat := 1024
def EXT4_FEATURE_RO_COMPAT_GDT_CSUM : Nat := 0x0010
def EXT4_FEATURE_RO_COMPAT_METADATA_CSUM : Nat := 0x0400
def EXT4_FEATURE_INCOMPAT_CSUM_SEED : Nat := 0x2000
def EXT2_MAX_DISK_LAYOUT_ARRAYS : Nat := 8192 * 6

def sizeofExt2Sblock : Nat := 1024
def sizeofExt2BlockGroup : Nat := 64

/-- A negative return value, a division or shift that C does not define, or an access outside of an array. -/
inductive Ext2Fail where
  | error
  | arithmetic
  | memory
deriving DecidableEq

abbrev Ext2M := Except Ext2Fail

def divide (a b : Nat) : Ext2M Nat := if b = 0 then throw .arithmetic else return a / b

/-! Fields of `struct ext2_sblock`. -/

def sbTotalInodes (sb : List Byte) : Nat := leField sb 0 4
def sbTotalBlocks (sb : List Byte) : Nat := leField sb 4 4
def sbFirstDataBlock (sb : List Byte) : Nat := leField sb 20 4
def sbLog2BlockSize (sb : List Byte) : Nat := leField sb 24 4
def sbLog2FragmentSize (sb : List Byte) : Nat := leField sb 28 4
def sbBlocksPerGroup (sb : List Byte) : Nat := leField sb 32 4
def sbFragmentsPerGroup (sb : List Byte) : Nat := leField sb 36 4
def sbInodesPerGroup (sb : List Byte) : Nat := leField sb 40 4
def sbMagic (sb : List Byte) : Nat := leField sb 56 2
def sbRevisionLevel (sb : List Byte) : Nat := leField sb 76 4
def sbInodeSize (sb : List Byte) : Nat := leField sb 88 2
def sbFeatureIncompat (sb : List Byte) : Nat := leField sb 96 4
def sbUniqueId (sb : List Byte) : List Byte := field sb 104 16
def sbReservedGdtBlocks (sb : List Byte) : Nat := leField sb 206 2
def sbDescriptorSize (sb : List Byte) : Nat := leField sb 254 2
def sbChecksumSeed (sb : List Byte) : Nat := leField sb 624 4
def sbChecksum (sb : List Byte) : Nat := leField sb 1020 4

def ext2HasSblockCsum (sb : List Byte) : Bool := ext2HasRoCompatFeature sb EXT4_FEATURE_RO_COMPAT_METADATA_CSUM

def ext2HasBlockGroupCsum (sb : List Byte) : Bool :=
  ext2HasRoCompatFeature sb (EXT4_FEATURE_RO_COMPAT_METADATA_CSUM ||| EXT4_FEATURE_RO_COMPAT_GDT_CSUM)

/-! The checksums of `ext2_editor_init`. -/

def ext2Crc32cLe : Libcrc 32 := Libcrc.defineLibcrcAlgo 0x1edc6f41 0xffffffff 0 true true
def ext2Crc16 : Libcrc 16 := Libcrc.defineLibcrcAlgo 0x8005 0xffff 0 true true

def ext2CheckSblock (sb : List Byte) : Bool :=
  if sbMagic sb ≠ EXT2_MAGIC then false
  else if sbTotalInodes sb = 0 then false
  else if sbTotalBlocks sb = 0 then false
  else if sbBlocksPerGroup sb = 0 then false
  else if sbFragmentsPerGroup sb = 0 then false
  else if sbInodesPerGroup sb = 0 then false
  else if ext2HasSblockCsum sb = false then true
  else
    let crc := Libcrc.libcrc32Update (Libcrc.libcrc32InitSeed ext2Crc32cLe 0xffffffff) (sb.take 1020)
    (Libcrc.libcrc32Finish crc).toNat = sbChecksum sb

def ext2InitCsumSeed (sb : List Byte) : BitVec 32 :=
  if sbFeatureIncompat sb &&& EXT4_FEATURE_INCOMPAT_CSUM_SEED ≠ 0 then BitVec.ofNat 32 (sbChecksumSeed sb)
  else
    Libcrc.libcrc32Finish (Libcrc.libcrc32Update (Libcrc.libcrc32InitSeed ext2Crc32cLe 0xffffffff) (sbUniqueId sb))

/-- The sum of the shift count is a `uint32_t`. -/
def ext2SblockLog2SizeToBytes (log2Size : Nat) : Ext2M Nat :=
  let count := (log2Size + EXT2_MIN_BLOCK_LOG_SIZE) % 2^32
  if 32 ≤ count then throw .arithmetic else return 2 ^ count

/-- `ext2_inode_block_number` with its divisions and its comparison of two `int`s. -/
def ext2InodeBlockNumberM (p : Ext2Editor) (ino : Nat) : Ext2M (Nat × Nat) := do
  let ino := (ino + 2^32 - 1) % 2^32
  let inodesPerBlock ← divide p.blockSize p.inodeSize
  let idx ← divide ino p.inodesPerGroup
  refuseIf .error (¬ toInt32 idx < toInt32 p.nBlockGroup)
  let inodeTableId ← found .memory (p.inodeTableId[idx]?)
  let block ← divide (ino % p.inodesPerGroup) inodesPerBlock
  return ((inodeTableId + block) % 2^32, ino % inodesPerBlock * p.inodeSize % 2^32)

def ext2ReadInodeM (p : Ext2Editor) (ino : Nat) : Ext2M (List Byte) := do
  let (blkno, blkOffset) ← ext2InodeBlockNumberM p ino
  let inode := ((p.fd.fileseek ((blkno * p.blockSize + blkOffset) % 2^32)).read sizeofExt2Inode).1
  refuseIf .error (inode.length ≠ sizeofExt2Inode)
  return inode

/-- The size of a group descriptor may be zero on ext2. -/
def ext2DescriptorSize (sb : List Byte) : Nat := if sbDescriptorSize sb = 0 then 32 else sbDescriptorSize sb

def bgBlockId (group : List Byte) : Nat := leField group 0 4
def bgInodeId (group : List Byte) : Nat := leField group 4 4
def bgInodeTableId (group : List Byte) : Nat := leField group 8 4
def bgChecksum (group : List Byte) : Nat := leField group 30 2

def ext2GroupSum (sb : List Byte) (csumSeed : BitVec 32) (i : Nat) (group : List Byte) (descriptorSize : Nat) : Nat :=
  if ext2HasRoCompatFeature sb EXT4_FEATURE_RO_COMPAT_METADATA_CSUM then
    let crc := Libcrc.libcrc32Update (Libcrc.libcrc32InitSeed ext2Crc32cLe csumSeed) (leBytes 4 i)
    let crc := Libcrc.libcrc32Update crc ((setField group 30 [0, 0]).take descriptorSize)
    (Libcrc.libcrc32Finish crc).toNat
  else
    let crc := Libcrc.libcrc16Update (Libcrc.libcrc16InitSeed ext2Crc16 0xffff) (sbUniqueId sb)
    let crc := Libcrc.libcrc16Update crc (leBytes 4 i)
    let crc := Libcrc.libcrc16Update crc (group.take 30)
    let crc := if 32 < descriptorSize then Libcrc.libcrc16Update crc (field group 32 (descriptorSize - 32)) else crc
    (Libcrc.libcrc16Finish crc).toNat

/-- The loop that loads the group descriptors from `i` on. A read that fills a part of a descriptor only leaves the
zeros of `calloc` behind it. -/
def ext2LoadGroups (sb : List Byte) (csumSeed : BitVec 32) (descriptorSize : Nat) : Nat → Nat → Fd → Ext2M (List (List Byte))
  | 0, _, _ => return []
  | count + 1, i, fd => do
    let (bytes, fd) := fd.read descriptorSize
    let group := bytes ++ List.replicate (sizeofExt2BlockGroup - bytes.length) 0
    refuseIf .error (ext2HasBlockGroupCsum sb = true ∧
      ext2GroupSum sb csumSeed i group descriptorSize &&& 0xffff ≠ bgChecksum group)
    let rest ← ext2LoadGroups sb csumSeed descriptorSize count (i + 1) fd
    return group :: rest

inductive DiskLayoutType where
  | superBlock
  | groupDescriptor
  | reservedGdt
  | dataBlockBitmap
  | inodeBitmap
  | inodeTable
deriving DecidableEq

structure DiskLayout where
  majorType : DiskLayoutType
  group : Nat
  startBlock : Nat
  lenBlock : Nat
deriving DecidableEq

/-- `struct ext2_editor_private_data`, without the bitmaps of the groups. -/
structure Ext2PrivateData extends Ext2Editor where
  sblock : List Byte
  blockGroups : List (List Byte)
  rootInode : List Byte
  layouts : List DiskLayout

def alignedBlock (size blockSize : Nat) : Ext2M Nat := divide (alignedLength size blockSize) blockSize

def ext2EditorRegisterLayout (layouts : List DiskLayout) (layout : DiskLayout) : List DiskLayout :=
  if layouts.length < EXT2_MAX_DISK_LAYOUT_ARRAYS then layouts ++ [layout] else layouts

/-- The superblock, the group descriptors and the space that is reserved for more of them. -/
def ext2BackupLayouts (p : Ext2Editor) (sb : List Byte) (group : Nat) : Ext2M (List DiskLayout) := do
  let blockStart := group * sbBlocksPerGroup sb % 2^32
  let blockLen ← alignedBlock (p.nBlockGroup * ext2DescriptorSize sb % 2^32) p.blockSize
  let reserved : DiskLayout := ⟨.reservedGdt, group, (blockStart + 1 + blockLen) % 2^32, sbReservedGdtBlocks sb⟩
  return [⟨.superBlock, group, blockStart, 1⟩, ⟨.groupDescriptor, group, (blockStart + 1) % 2^32, blockLen % 2^32⟩] ++
    if 0 < sbReservedGdtBlocks sb then [reserved] else []

def ext2GroupLayouts (p : Ext2Editor) (sb : List Byte) (group : Nat) (bgrp : List Byte) : Ext2M (List DiskLayout) := do
  let backup ← if group = 0 ∨ ext2BlockGroupHasBackupSb sb group = true then ext2BackupLayouts p sb group else pure []
  let blockLen ← alignedBlock (p.inodeSize * sbInodesPerGroup sb % 2^32) p.blockSize
  return backup ++ [⟨.inodeBitmap, group, bgInodeId bgrp, 1⟩, ⟨.dataBlockBitmap, group, bgBlockId bgrp, 1⟩,
    ⟨.inodeTable, group, bgInodeTableId bgrp, blockLen % 2^32⟩]

def ext2EditorInitLayouts (p : Ext2Editor) (sb : List Byte) (blockGroups : List (List Byte)) : Ext2M (List DiskLayout) := do
  let layouts ← blockGroups.zipIdx.mapM fun bgrp => ext2GroupLayouts p sb bgrp.2 bgrp.1
  -- the merge sort of glibc, with the difference of two uint32_t as an int
  return (layouts.flatten.foldl ext2EditorRegisterLayout []).mergeSort fun a b =>
    decide (toInt32 ((a.startBlock : Int) - b.startBlock) ≤ 0)

/-- `ext2_detect`; the parameter is `imgeditor_in_search_mode()`. -/
def ext2Detect (searchMode : Bool) (fd : Fd) : Ext2M Ext2PrivateData := do
  let sb ← found .error (fileread (fd.fileseek SUPERBLOCK_START) sizeofExt2Sblock)
  refuseIf .error (searchMode = true ∧ ext2HasBlockGroupCsum sb = false)
  refuseIf .error (ext2CheckSblock sb = false)
  let csumSeed := ext2InitCsumSeed sb
  let blockSize ← ext2SblockLog2SizeToBytes (sbLog2BlockSize sb)
  let _ ← ext2SblockLog2SizeToBytes (sbLog2FragmentSize sb)
  let blocks := (sbTotalBlocks sb + 2^32 - sbFirstDataBlock sb) % 2^32
  let nBlockGroup ← divide (alignedLength32 blocks (sbBlocksPerGroup sb)) (sbBlocksPerGroup sb)
  refuseIf .error (8192 < nBlockGroup)
  let descriptorSize := ext2DescriptorSize sb
  refuseIf .error (sizeofExt2BlockGroup < descriptorSize)
  let inodeSize := if sbRevisionLevel sb = 0 then 128 else sbInodeSize sb
  refuseIf .error ((fd.file.size : Int) - fd.start < (sbTotalBlocks sb * blockSize : Nat))
  let blockGroups ← ext2LoadGroups sb csumSeed descriptorSize nBlockGroup 0 (fd.fileseek blockSize)
  let p : Ext2Editor := ⟨fd, blockSize, inodeSize, nBlockGroup, sbInodesPerGroup sb, blockGroups.map bgInodeTableId⟩
  let rootInode ← ext2ReadInodeM p EXT2_ROOT_INO
  let layouts ← ext2EditorInitLayouts p sb blockGroups
  return ⟨p, sb, blockGroups, rootInode, layouts⟩

end ImgEditor
