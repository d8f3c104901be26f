import Mathlib.Algebra.Order.BigOperators.Group.List
import ImgEditor.Fs.Ext2InodeAddress

namespace ImgEditor

open Storage

/-! ## The loop that reads the group descriptors -/

def descriptorAt (file : File) (place size : Nat) : List Byte :=
  let bytes := file.readAt place size
  bytes ++ List.replicate (sizeofExt2BlockGroup - bytes.length) 0

theorem readAt_beyond {file : File} {pos : Nat} (beyond : file.size ≤ pos) (count : Nat) : file.readAt pos count = [] := by
  rw [File.readAt, Nat.sub_eq_zero_of_le beyond, Nat.min_zero, File.slice_zero]

/-- The position behind a read is exact, or both are behind the end of the file. -/
theorem Fd.read_place {fd : Fd} {place : Nat} (count : Nat) (small : count < 0x7ffff000)
    (same : fd.pos = place ∨ fd.file.size ≤ fd.pos ∧ fd.file.size ≤ place) :
    (fd.read count).1 = fd.file.readAt place count ∧ (fd.read count).2.file = fd.file ∧
      ((fd.read count).2.pos = place + count ∨ fd.file.size ≤ (fd.read count).2.pos ∧ fd.file.size ≤ place + count) := by
  have whole : min count 0x7ffff000 = count := by omega
  unfold Fd.read
  dsimp only
  rw [whole]
  rcases same with exact | ⟨beyond, beyond'⟩
  · rw [exact]
    refine ⟨rfl, rfl, ?_⟩
    rw [File.readAt, File.slice_length]
    omega
  · rw [readAt_beyond beyond, readAt_beyond beyond']
    refine ⟨rfl, rfl, .inr ⟨beyond, by omega⟩⟩

theorem ext2LoadGroups_reads {sb : List Byte} {csumSeed : BitVec 32} {size : Nat} (small : size ≤ sizeofExt2BlockGroup)
    {count i place : Nat} {fd : Fd} {groups : List (List Byte)} (loaded : ext2LoadGroups sb csumSeed size count i fd = .ok groups)
    (same : fd.pos = place ∨ fd.file.size ≤ fd.pos ∧ fd.file.size ≤ place) :
    groups = (List.range count).map fun j => descriptorAt fd.file (place + j * size) size := by
  induction count generalizing i place fd groups with
  | zero =>
    obtain rfl := Except.ok.inj loaded
    rfl
  | succ count ih =>
    simp only [ext2LoadGroups, bind_ok_iff] at loaded
    rcases loaded with ⟨_, -, rest, later, final⟩
    obtain rfl := Except.ok.inj final
    have few : size < 0x7ffff000 := small.trans_lt (by decide)
    rcases Fd.read_place size few same with ⟨bytes, file, next⟩
    rw [← file] at next
    rw [ih later next, file, bytes, List.range_succ_eq_map, List.map_cons, List.map_map, Nat.zero_mul, Nat.add_zero]
    refine congrArg (List.cons _) (List.map_congr_left ?_)
    intro j _
    dsimp only [Function.comp]
    rw [Nat.succ_mul, Nat.add_assoc, Nat.add_comm (j * size)]

/-! ## The registered layouts -/

theorem ext2EditorRegisterLayout_all {layouts registered : List DiskLayout}
    (few : registered.length + layouts.length ≤ EXT2_MAX_DISK_LAYOUT_ARRAYS) :
    layouts.foldl ext2EditorRegisterLayout registered = registered ++ layouts := by
  induction layouts generalizing registered with
  | nil => rw [List.foldl_nil, List.append_nil]
  | cons layout rest ih =>
    rw [List.length_cons] at few
    have room : ext2EditorRegisterLayout registered layout = registered ++ [layout] := if_pos (by omega)
    rw [List.foldl_cons, room, ih (by rw [List.length_append, List.length_singleton]; omega), List.append_assoc]
    rfl

theorem groupLayouts_length (p : Ext2Editor) (sb : List Byte) (group : Nat) (bgrp : List Byte) :
    (groupLayouts p sb group bgrp).length ≤ 6 := by
  unfold groupLayouts backupLayouts
  split_ifs <;> simp

namespace Ext2Accepted

variable {fd : Fd} {p : Ext2PrivateData} (accepted : Ext2Accepted fd p)

include accepted

theorem groupCount : p.blockGroups.length = p.nBlockGroup := by
  rw [accepted.editor]
  exact ext2LoadGroups_length accepted.loaded

theorem group_stored {g : Nat} (inside : g < p.nBlockGroup) : ∃ bgrp, p.blockGroups[g]? = some bgrp := by
  rw [← accepted.groupCount] at inside
  exact ⟨_, List.getElem?_eq_getElem inside⟩

theorem some_group : 0 < p.nBlockGroup := by
  have root := accepted.root
  simp only [ext2ReadInodeM, ext2InodeBlockNumberM, bind_ok_iff, found_ok_iff] at root
  rcases root with ⟨_, ⟨_, -, _, -, _, -, _, stored, -⟩, -⟩
  have inside := (List.getElem?_eq_some_iff.mp stored).1
  have tables := accepted.tables
  omega

theorem mem_layouts (layout : DiskLayout) :
    layout ∈ p.layouts ↔
      ∃ g bgrp, p.blockGroups[g]? = some bgrp ∧ layout ∈ groupLayouts p.toExt2Editor p.sblock g bgrp := by
  have positive : p.toExt2Editor.blockSize ≠ 0 := by
    have sizes := accepted.sizes
    omega
  have registered := accepted.layouts
  rw [ext2EditorInitLayouts_eq positive] at registered
  have few : (List.map (fun bgrp => groupLayouts p.toExt2Editor p.sblock bgrp.2 bgrp.1) p.blockGroups.zipIdx).flatten.length ≤
      EXT2_MAX_DISK_LAYOUT_ARRAYS := by
    rw [List.length_flatten, List.map_map]
    have bound := List.sum_le_card_nsmul
      (p.blockGroups.zipIdx.map (List.length ∘ fun bgrp => groupLayouts p.toExt2Editor p.sblock bgrp.2 bgrp.1)) 6
      (List.forall_mem_map.mpr fun bgrp _ => groupLayouts_length ..)
    have few := accepted.few
    rw [List.length_map, List.length_zipIdx, accepted.groupCount] at bound
    change _ ≤ p.nBlockGroup * 6 at bound
    unfold EXT2_MAX_DISK_LAYOUT_ARRAYS
    omega
  rw [ext2EditorRegisterLayout_all (by rwa [List.length_nil, Nat.zero_add]), List.nil_append] at registered
  rw [← Except.ok.inj registered, List.mem_mergeSort, List.mem_flatten]
  simp only [List.mem_map, Prod.exists, List.mem_zipIdx_iff_getElem?]
  constructor
  · rintro ⟨_, ⟨bgrp, g, stored, rfl⟩, member⟩
    exact ⟨g, bgrp, stored, member⟩
  · rintro ⟨g, bgrp, stored, member⟩
    exact ⟨_, ⟨bgrp, g, stored, rfl⟩, member⟩

end Ext2Accepted

theorem superBlock_mem_groupLayouts {p : Ext2Editor} {sb : List Byte} {group : Nat} {bgrp : List Byte} {g start len : Nat} :
    ⟨.superBlock, g, start, len⟩ ∈ groupLayouts p sb group bgrp ↔
      (group = 0 ∨ ext2BlockGroupHasBackupSb sb group = true) ∧ g = group ∧ start = group * sbBlocksPerGroup sb % 2^32 ∧ len = 1 := by
  unfold groupLayouts backupLayouts
  by_cases backup : group = 0 ∨ ext2BlockGroupHasBackupSb sb group = true
  · by_cases reserved : 0 < sbReservedGdtBlocks sb
    · simp [backup, reserved]
    · simp [backup, reserved]
  · simp [backup]

theorem groupDescriptor_mem_groupLayouts {p : Ext2Editor} {sb : List Byte} {group : Nat} {bgrp : List Byte} {g start len : Nat} :
    ⟨.groupDescriptor, g, start, len⟩ ∈ groupLayouts p sb group bgrp ↔
      (group = 0 ∨ ext2BlockGroupHasBackupSb sb group = true) ∧ g = group ∧
        start = (group * sbBlocksPerGroup sb % 2^32 + 1) % 2^32 ∧
          len = alignedLength (p.nBlockGroup * ext2DescriptorSize sb % 2^32) p.blockSize / p.blockSize % 2^32 := by
  unfold groupLayouts backupLayouts
  by_cases backup : group = 0 ∨ ext2BlockGroupHasBackupSb sb group = true
  · by_cases reserved : 0 < sbReservedGdtBlocks sb
    · simp [backup, reserved]
    · simp [backup, reserved]
  · simp [backup]

/-! ## The layout of the file system -/

/-- The first group and, on a file system with the feature, those that the powers name hold a superblock. -/
def GroupHasSuperBlock (sb : List Byte) (g : Nat) : Prop :=
  g = 0 ∨ ext2HasRoCompatFeature sb EXT4_FEATURE_RO_COMPAT_SPARSE_SUPER = false ∨ IsBackupGroup g

theorem groupHasSuperBlock_iff {sb : List Byte} {g : Nat} (fits : g < 2 ^ 31) :
    g = 0 ∨ ext2BlockGroupHasBackupSb sb g = true ↔ GroupHasSuperBlock sb g := by
  unfold GroupHasSuperBlock
  by_cases sparse : ext2HasRoCompatFeature sb EXT4_FEATURE_RO_COMPAT_SPARSE_SUPER = true
  · rw [ext2BlockGroupHasBackupSb_iff sparse fits, sparse]
    simp
  · rw [ext2BlockGroupHasBackupSb, if_neg sparse]
    simp [sparse]

/-- The descriptors and the layouts are where the first data block and the group put them. -/
structure Ext2Placed (fd : Fd) (p : Ext2PrivateData) : Prop where
  descriptors : ∀ i < p.nBlockGroup, p.blockGroups[i]? = some (descriptorAt fd.file
    (fd.start + (sbFirstDataBlock p.sblock + 1) * p.blockSize + i * ext2DescriptorSize p.sblock) (ext2DescriptorSize p.sblock))
  superBlocks : ∀ g < p.nBlockGroup, GroupHasSuperBlock p.sblock g → ∀ start,
    (∃ len, ⟨.superBlock, g, start, len⟩ ∈ p.layouts) ↔ start = sbFirstDataBlock p.sblock + g * sbBlocksPerGroup p.sblock
  groupDescriptors : ∀ g < p.nBlockGroup, GroupHasSuperBlock p.sblock g → ∀ start,
    (∃ len, ⟨.groupDescriptor, g, start, len⟩ ∈ p.layouts) ↔
      start = sbFirstDataBlock p.sblock + g * sbBlocksPerGroup p.sblock + 1

namespace Ext2Accepted

variable {fd : Fd} {p : Ext2PrivateData} (accepted : Ext2Accepted fd p)

include accepted

theorem groupStart_lt {g : Nat} (inside : g < p.nBlockGroup) : g * sbBlocksPerGroup p.sblock + 1 < 2 ^ 32 := by
  have few := accepted.few
  have counts := ext2CheckSblock_counts accepted.checked
  have groups : p.nBlockGroup = sbGroups p.sblock := by
    rw [accepted.editor]
    rfl
  have whole : p.nBlockGroup * sbBlocksPerGroup p.sblock < 2 ^ 32 := by
    rw [groups, sbGroups, alignedLength32, Nat.mul_div_cancel _ (Nat.pos_of_ne_zero counts.1)]
    exact (Nat.div_mul_le_self _ _).trans_lt (Nat.mod_lt _ (by decide))
  have next := Nat.mul_le_mul_right (sbBlocksPerGroup p.sblock) (Nat.succ_le_of_lt inside)
  rw [Nat.succ_mul] at next
  rcases Nat.lt_or_ge 1 (sbBlocksPerGroup p.sblock) with more | one
  · omega
  · rw [show sbBlocksPerGroup p.sblock = 1 by omega, Nat.mul_one]
    omega

theorem superBlock_layouts {g : Nat} (inside : g < p.nBlockGroup) (backup : GroupHasSuperBlock p.sblock g) (start : Nat) :
    (∃ len, ⟨.superBlock, g, start, len⟩ ∈ p.layouts) ↔ start = g * sbBlocksPerGroup p.sblock := by
  have few := accepted.few
  have small := accepted.groupStart_lt inside
  simp only [accepted.mem_layouts, superBlock_mem_groupLayouts]
  constructor
  · rintro ⟨_, _, _, _, _, rfl, rfl, _⟩
    exact Nat.mod_eq_of_lt (by omega)
  · rintro rfl
    rcases accepted.group_stored inside with ⟨bgrp, stored⟩
    exact ⟨1, g, bgrp, stored, (groupHasSuperBlock_iff (by omega)).mpr backup, rfl, (Nat.mod_eq_of_lt (by omega)).symm, rfl⟩

theorem groupDescriptor_layouts {g : Nat} (inside : g < p.nBlockGroup) (backup : GroupHasSuperBlock p.sblock g) (start : Nat) :
    (∃ len, ⟨.groupDescriptor, g, start, len⟩ ∈ p.layouts) ↔ start = g * sbBlocksPerGroup p.sblock + 1 := by
  have few := accepted.few
  have small := accepted.groupStart_lt inside
  have exact : (g * sbBlocksPerGroup p.sblock % 2^32 + 1) % 2^32 = g * sbBlocksPerGroup p.sblock + 1 := by
    rw [Nat.mod_add_mod, Nat.mod_eq_of_lt small]
  simp only [accepted.mem_layouts, groupDescriptor_mem_groupLayouts]
  constructor
  · rintro ⟨_, _, _, _, _, rfl, rfl, _⟩
    exact exact
  · rintro rfl
    rcases accepted.group_stored inside with ⟨bgrp, stored⟩
    exact ⟨_, g, bgrp, stored, (groupHasSuperBlock_iff (by omega)).mpr backup, rfl, exact.symm, rfl⟩

theorem descriptors_read (near : fd.file.size < 2 ^ 63) {i : Nat} (inside : i < p.nBlockGroup) :
    p.blockGroups[i]? = some (descriptorAt fd.file (fd.start + p.blockSize + i * ext2DescriptorSize p.sblock)
      (ext2DescriptorSize p.sblock)) := by
  have loaded := accepted.loaded
  have complete := accepted.complete
  have blocks : sbTotalBlocks p.sblock ≠ 0 := by
    have checked := accepted.checked
    unfold ext2CheckSblock at checked
    split_ifs at checked <;> assumption
  have position : (fd.fileseek (sbBlockBytes p.sblock)).pos = fd.start + sbBlockBytes p.sblock := by
    have first := Nat.le_mul_of_pos_left (sbBlockBytes p.sblock) (Nat.pos_of_ne_zero blocks)
    have small : fd.start + sbBlockBytes p.sblock < 2 ^ 63 := by omega
    rw [Fd.fileseek, Fd.lseek64, Nat.mod_eq_of_lt (small.trans (by decide)), if_pos small]
  have groups := ext2LoadGroups_reads accepted.descriptor loaded (.inl position)
  have count : p.nBlockGroup = sbGroups p.sblock := by
    rw [accepted.editor]
    rfl
  have size : p.blockSize = sbBlockBytes p.sblock := by
    rw [accepted.editor]
    rfl
  have file : (fd.fileseek (sbBlockBytes p.sblock)).file = fd.file := Fd.fileseek_file ..
  rw [groups, List.getElem?_map, List.getElem?_range (by rwa [← count]), Option.map_some, file, size]

end Ext2Accepted

theorem ext2Placed_iff {searchMode : Bool} {fd : Fd} {p : Ext2PrivateData} (near : fd.file.size < 2 ^ 63)
    (detected : ext2Detect searchMode fd = .ok p) : Ext2Placed fd p ↔ sbFirstDataBlock p.sblock = 0 := by
  have accepted := ext2Detect_accepted detected
  constructor
  · intro placed
    have layout := placed.superBlocks 0 accepted.some_group (.inl rfl) 0
    rw [accepted.superBlock_layouts accepted.some_group (.inl rfl), Nat.zero_mul] at layout
    have start := layout.mp rfl
    omega
  · intro zero
    constructor
    · intro i inside
      rw [zero, Nat.zero_add, Nat.one_mul]
      exact accepted.descriptors_read near inside
    · intro g inside backup start
      rw [zero, Nat.zero_add]
      exact accepted.superBlock_layouts inside backup start
    · intro g inside backup start
      rw [zero, Nat.zero_add]
      exact accepted.groupDescriptor_layouts inside backup start

theorem ext2Placed_iff_small : ∃ p, ext2Detect false (ext2Image (ext2SmallSuper 128) 8192) = .ok p ∧
    Ext2Placed (ext2Image (ext2SmallSuper 128) 8192) p := by
  rcases @ext2Detect_image (ext2Image (ext2SmallSuper 128) 8192) (ext2SmallSblock 128) 1024 128 1 16 [0]
    (ext2Image_superblock (by decide +kernel)) (by decide +kernel) (by decide +kernel) (by decide +kernel) (by decide +kernel)
    (by decide +kernel) (by decide +kernel) (by decide +kernel) with ⟨p, detected, sblock, -⟩
  refine ⟨p, detected, (ext2Placed_iff (by decide +kernel) detected).mpr ?_⟩
  rw [sblock]
  decide +kernel

/-! With blocks of 1 KiB the superblock is in block 1 and the descriptors are in block 2. -/

def ext2ShiftedSuper : List (Nat × List Byte) := ext2SmallSuper 128 ++ [(20, leBytes 4 1), (1024 + 8, leBytes 4 5)]

def ext2ShiftedSblock : List Byte := (ext2Image ext2ShiftedSuper 8192).file.slice 1024 1024

theorem ext2Placed_shifted : ∃ p, ext2Detect false (ext2Image ext2ShiftedSuper 8192) = .ok p ∧
    ¬ Ext2Placed (ext2Image ext2ShiftedSuper 8192) p := by
  rcases @ext2Detect_image (ext2Image ext2ShiftedSuper 8192) ext2ShiftedSblock 1024 128 1 16 [0]
    (ext2Image_superblock (by decide +kernel)) (by decide +kernel) (by decide +kernel) (by decide +kernel) (by decide +kernel)
    (by decide +kernel) (by decide +kernel) (by decide +kernel) with ⟨p, detected, sblock, editor⟩
  refine ⟨p, detected, fun placed => ?_⟩
  have stored := placed.descriptors 0 (by rw [editor]; decide)
  have table : p.inodeTableId[0]? = p.blockGroups[0]?.map bgInodeTableId := by
    rw [(ext2Detect_accepted detected).editor, sbEditor, List.getElem?_map]
  -- the descriptor that is read is the superblock, whose field is 0
  rw [stored, editor, sblock] at table
  revert table
  decide +kernel

end ImgEditor
