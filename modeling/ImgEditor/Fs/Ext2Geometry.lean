import ImgEditor.Fs.Ext2Detect

namespace ImgEditor

open Storage

/-! What the superblock says about the sizes. -/

def sbShift (log2Size : Nat) : Nat := (log2Size + EXT2_MIN_BLOCK_LOG_SIZE) % 2^32
def sbBlockBytes (sb : List Byte) : Nat := 2 ^ sbShift (sbLog2BlockSize sb)
def sbInodeBytes (sb : List Byte) : Nat := if sbRevisionLevel sb = 0 then 128 else sbInodeSize sb

def sbGroups (sb : List Byte) : Nat :=
  alignedLength32 ((sbTotalBlocks sb + 2^32 - sbFirstDataBlock sb) % 2^32) (sbBlocksPerGroup sb) / sbBlocksPerGroup sb

def sbEditor (sb : List Byte) (fd : Fd) (blockGroups : List (List Byte)) : Ext2Editor :=
  ⟨fd, sbBlockBytes sb, sbInodeBytes sb, sbGroups sb, sbInodesPerGroup sb, blockGroups.map bgInodeTableId⟩

def sbLoadGroups (sb : List Byte) (fd : Fd) : Ext2M (List (List Byte)) :=
  ext2LoadGroups sb (ext2InitCsumSeed sb) (ext2DescriptorSize sb) (sbGroups sb) 0 (fd.fileseek (sbBlockBytes sb))

structure Ext2Accepted (fd : Fd) (p : Ext2PrivateData) : Prop where
  read : fileread (fd.fileseek SUPERBLOCK_START) sizeofExt2Sblock = some p.sblock
  checked : ext2CheckSblock p.sblock = true
  blockShift : sbShift (sbLog2BlockSize p.sblock) < 32
  fragmentShift : sbShift (sbLog2FragmentSize p.sblock) < 32
  groups : sbGroups p.sblock ≤ 8192
  descriptor : ext2DescriptorSize p.sblock ≤ sizeofExt2BlockGroup
  complete : ((sbTotalBlocks p.sblock * sbBlockBytes p.sblock : Nat) : Int) ≤ (fd.file.size : Int) - fd.start
  loaded : sbLoadGroups p.sblock fd = .ok p.blockGroups
  editor : p.toExt2Editor = sbEditor p.sblock fd p.blockGroups
  root : ext2ReadInodeM p.toExt2Editor EXT2_ROOT_INO = .ok p.rootInode
  layouts : ext2EditorInitLayouts p.toExt2Editor p.sblock p.blockGroups = .ok p.layouts

theorem ext2SblockLog2SizeToBytes_ok_iff {log2Size size : Nat} :
    ext2SblockLog2SizeToBytes log2Size = .ok size ↔ sbShift log2Size < 32 ∧ size = 2 ^ sbShift log2Size := by
  unfold ext2SblockLog2SizeToBytes sbShift
  dsimp only
  split
  · exact iff_of_false nofun fun both => absurd both.1 (by omega)
  · exact ⟨fun same => ⟨by omega, (Except.ok.inj same).symm⟩, fun both => congrArg Except.ok both.2.symm⟩

theorem ext2SblockLog2SizeToBytes_error_iff {log2Size : Nat} {fail : Ext2Fail} :
    ext2SblockLog2SizeToBytes log2Size = .error fail ↔ 32 ≤ sbShift log2Size ∧ .arithmetic = fail := by
  unfold ext2SblockLog2SizeToBytes sbShift
  dsimp only
  split
  · exact ⟨fun same => ⟨‹_›, Except.error.inj same⟩, fun both => congrArg Except.error both.2⟩
  · exact iff_of_false nofun fun both => absurd both.1 ‹_›

theorem divide_ok_iff {a b q : Nat} : divide a b = .ok q ↔ b ≠ 0 ∧ q = a / b := by
  unfold divide
  split
  · exact iff_of_false nofun fun both => both.1 ‹_›
  · exact ⟨fun same => ⟨‹_›, (Except.ok.inj same).symm⟩, fun both => congrArg Except.ok both.2.symm⟩

theorem divide_error_iff {a b : Nat} {fail : Ext2Fail} : divide a b = .error fail ↔ b = 0 ∧ .arithmetic = fail := by
  unfold divide
  split
  · exact ⟨fun same => ⟨‹_›, Except.error.inj same⟩, fun both => congrArg Except.error both.2⟩
  · exact iff_of_false nofun fun both => ‹¬ _› both.1

theorem ext2Detect_accepted {searchMode : Bool} {fd : Fd} {p : Ext2PrivateData} (detected : ext2Detect searchMode fd = .ok p) :
    Ext2Accepted fd p := by
  unfold ext2Detect at detected
  simp only [bind_ok_iff, found_ok_iff, refuseIf_ok_iff, ext2SblockLog2SizeToBytes_ok_iff, divide_ok_iff, not_lt,
    Bool.not_eq_false] at detected
  rcases detected with ⟨sb, read, -, -, -, checked, _, ⟨blockShift, rfl⟩, _, ⟨fragmentShift, rfl⟩, _, ⟨-, rfl⟩, -, groups, -, descriptor, -,
    complete, blockGroups, loaded, rootInode, root, layouts, registered, final⟩
  obtain rfl := Except.ok.inj final
  exact ⟨read, checked, blockShift, fragmentShift, groups, descriptor, complete, loaded, rfl, root, registered⟩

theorem sbBlockBytes_pos (sb : List Byte) : 0 < sbBlockBytes sb := Nat.two_pow_pos _

theorem ext2CheckSblock_counts {sb : List Byte} (checked : ext2CheckSblock sb = true) :
    sbBlocksPerGroup sb ≠ 0 ∧ sbInodesPerGroup sb ≠ 0 := by
  unfold ext2CheckSblock at checked
  split_ifs at checked <;> exact ⟨‹_›, ‹_›⟩

theorem ext2LoadGroups_fails {sb : List Byte} {csumSeed : BitVec 32} {descriptorSize count i : Nat} {fd : Fd} {fail : Ext2Fail}
    (failed : ext2LoadGroups sb csumSeed descriptorSize count i fd = .error fail) : fail = .error := by
  induction count generalizing i fd with
  | zero => cases failed
  | succ count ih =>
    simp only [ext2LoadGroups, bind_error_iff, refuseIf_error_iff] at failed
    rcases failed with ⟨-, rfl⟩ | ⟨_, -, failed | ⟨_, -, impossible⟩⟩
    · rfl
    · exact ih failed
    · cases impossible

theorem ext2LoadGroups_length {sb : List Byte} {csumSeed : BitVec 32} {descriptorSize count i : Nat} {fd : Fd}
    {groups : List (List Byte)} (loaded : ext2LoadGroups sb csumSeed descriptorSize count i fd = .ok groups) :
    groups.length = count := by
  induction count generalizing i fd groups with
  | zero =>
    obtain rfl := Except.ok.inj loaded
    rfl
  | succ count ih =>
    simp only [ext2LoadGroups, bind_ok_iff] at loaded
    rcases loaded with ⟨_, -, rest, later, final⟩
    obtain rfl := Except.ok.inj final
    exact congrArg Nat.succ (ih later)

/-! ## The layouts, when the block size is not zero -/

def backupLayouts (p : Ext2Editor) (sb : List Byte) (group : Nat) : List DiskLayout :=
  let blockStart := group * sbBlocksPerGroup sb % 2^32
  let blockLen := alignedLength (p.nBlockGroup * ext2DescriptorSize sb % 2^32) p.blockSize / p.blockSize
  let reserved : DiskLayout := ⟨.reservedGdt, group, (blockStart + 1 + blockLen) % 2^32, sbReservedGdtBlocks sb⟩
  [⟨.superBlock, group, blockStart, 1⟩, ⟨.groupDescriptor, group, (blockStart + 1) % 2^32, blockLen % 2^32⟩] ++
    if 0 < sbReservedGdtBlocks sb then [reserved] else []

def groupLayouts (p : Ext2Editor) (sb : List Byte) (group : Nat) (bgrp : List Byte) : List DiskLayout :=
  let blockLen := alignedLength (p.inodeSize * sbInodesPerGroup sb % 2^32) p.blockSize / p.blockSize
  (if group = 0 ∨ ext2BlockGroupHasBackupSb sb group = true then backupLayouts p sb group else []) ++
    [⟨.inodeBitmap, group, bgInodeId bgrp, 1⟩, ⟨.dataBlockBitmap, group, bgBlockId bgrp, 1⟩,
      ⟨.inodeTable, group, bgInodeTableId bgrp, blockLen % 2^32⟩]

section Layouts

variable {p : Ext2Editor} (positive : p.blockSize ≠ 0) (sb : List Byte)

include positive

theorem alignedBlock_eq (size : Nat) : alignedBlock size p.blockSize = pure (alignedLength size p.blockSize / p.blockSize) :=
  if_neg positive

theorem ext2GroupLayouts_eq (group : Nat) (bgrp : List Byte) :
    ext2GroupLayouts p sb group bgrp = pure (groupLayouts p sb group bgrp) := by
  have backup : ext2BackupLayouts p sb group = pure (backupLayouts p sb group) := by
    rw [ext2BackupLayouts, alignedBlock_eq positive, pure_bind]
    rfl
  rw [ext2GroupLayouts, backup, alignedBlock_eq positive, groupLayouts]
  by_cases has : group = 0 ∨ ext2BlockGroupHasBackupSb sb group = true
  · simp only [if_pos has, pure_bind]
  · simp only [if_neg has, pure_bind]

theorem ext2EditorInitLayouts_eq (blockGroups : List (List Byte)) :
    ext2EditorInitLayouts p sb blockGroups =
      pure (((blockGroups.zipIdx.map fun bgrp => groupLayouts p sb bgrp.2 bgrp.1).flatten.foldl
        ext2EditorRegisterLayout []).mergeSort fun a b =>
          decide (toInt32 ((a.startBlock : Int) - b.startBlock) ≤ 0)) := by
  have total : (fun bgrp : List Byte × Nat => ext2GroupLayouts p sb bgrp.2 bgrp.1) =
      fun bgrp => pure (groupLayouts p sb bgrp.2 bgrp.1) := by
    funext bgrp
    exact ext2GroupLayouts_eq positive sb bgrp.2 bgrp.1
  rw [ext2EditorInitLayouts, total, List.mapM_pure, pure_bind]

end Layouts

/-- A superblock with sizes in range, complete descriptors and a root inode is enough. -/
theorem ext2Detect_accepts {fd : Fd} {sb : List Byte} {blockGroups : List (List Byte)} {rootInode : List Byte}
    (read : fileread (fd.fileseek SUPERBLOCK_START) sizeofExt2Sblock = some sb) (checked : ext2CheckSblock sb = true)
    (shifts : sbShift (sbLog2BlockSize sb) < 32 ∧ sbShift (sbLog2FragmentSize sb) < 32) (groups : sbGroups sb ≤ 8192)
    (descriptor : ext2DescriptorSize sb ≤ sizeofExt2BlockGroup)
    (complete : ((sbTotalBlocks sb * sbBlockBytes sb : Nat) : Int) ≤ (fd.file.size : Int) - fd.start)
    (loaded : sbLoadGroups sb fd = .ok blockGroups)
    (root : ext2ReadInodeM (sbEditor sb fd blockGroups) EXT2_ROOT_INO = .ok rootInode) :
    ∃ p, ext2Detect false fd = .ok p ∧ p.toExt2Editor = sbEditor sb fd blockGroups ∧ p.sblock = sb ∧
      p.blockGroups = blockGroups := by
  obtain ⟨layouts, registered⟩ : ∃ layouts, ext2EditorInitLayouts (sbEditor sb fd blockGroups) sb blockGroups = .ok layouts :=
    ⟨_, ext2EditorInitLayouts_eq (show (sbEditor sb fd blockGroups).blockSize ≠ 0 from (sbBlockBytes_pos sb).ne') sb blockGroups⟩
  refine ⟨⟨sbEditor sb fd blockGroups, sb, blockGroups, rootInode, layouts⟩, ?_, rfl, rfl, rfl⟩
  unfold ext2Detect
  simp only [bind_ok_iff, found_ok_iff, refuseIf_ok_iff, ext2SblockLog2SizeToBytes_ok_iff, divide_ok_iff, not_lt,
    Bool.not_eq_false]
  exact ⟨sb, read, (), nofun, (), checked, _, ⟨shifts.1, rfl⟩, _, ⟨shifts.2, rfl⟩, _, ⟨(ext2CheckSblock_counts checked).1, rfl⟩, (),
    groups, (), descriptor, (), complete, blockGroups, loaded, rootInode, root, layouts, registered, rfl⟩

end ImgEditor
