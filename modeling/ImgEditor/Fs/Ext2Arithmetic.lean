import ImgEditor.Fs.Ext2Geometry

namespace ImgEditor

open Storage

/-! ## The lookup of an inode -/

section Lookup

variable {p : Ext2Editor} (groups : p.nBlockGroup ≤ 8192) (tables : p.inodeTableId.length = p.nBlockGroup)
  (counted : p.inodesPerGroup ≠ 0)

include groups tables

/-- A group with a number from `2 ^ 31` on passes the comparison, but is not in the array. -/
theorem inodeTableId_found_iff {idx table : Nat} :
    toInt32 idx < toInt32 p.nBlockGroup ∧ p.inodeTableId[idx]? = some table ↔ p.inodeTableId[idx]? = some table := by
  constructor
  · exact And.right
  · intro stored
    have inside := (List.getElem?_eq_some_iff.mp stored).1
    rw [toInt32_of_lt (by omega), toInt32_of_lt (by omega)]
    exact ⟨by omega, stored⟩

theorem ext2InodeBlockNumberM_memory {ino : Nat} (fails : ext2InodeBlockNumberM p ino = .error .memory) :
    2^31 ≤ (ino + 2^32 - 1) % 2^32 / p.inodesPerGroup := by
  simp only [ext2InodeBlockNumberM, bind_error_iff, divide_error_iff, divide_ok_iff, refuseIf_error_iff, refuseIf_ok_iff,
    found_error_iff, found_ok_iff, reduceCtorEq, and_false, and_true, false_or, not_not] at fails
  rcases fails with ⟨_, -, _, ⟨-, rfl⟩, _, less, missing | ⟨_, -, _, -, impossible⟩⟩
  · by_contra small
    rw [toInt32_of_lt (by omega), toInt32_of_lt (by omega)] at less
    rw [List.getElem?_eq_none_iff] at missing
    omega
  · cases impossible

include counted

theorem ext2InodeBlockNumberM_arithmetic_iff (ino : Nat) :
    ext2InodeBlockNumberM p ino = .error .arithmetic ↔
      p.inodeSize = 0 ∨ p.blockSize < p.inodeSize ∧ (ino + 2^32 - 1) % 2^32 / p.inodesPerGroup < p.nBlockGroup := by
  simp only [ext2InodeBlockNumberM, bind_error_iff, divide_error_iff, divide_ok_iff, refuseIf_error_iff, refuseIf_ok_iff,
    found_error_iff, found_ok_iff, counted, reduceCtorEq, and_false, and_true, false_or, not_not]
  generalize (ino + 2^32 - 1) % 2^32 / p.inodesPerGroup = idx
  constructor
  · rintro (zero | ⟨_, ⟨nonzero, rfl⟩, _, ⟨-, rfl⟩, _, -, table, stored, none | ⟨_, -, impossible⟩⟩)
    · exact .inl zero
    · have inside := (List.getElem?_eq_some_iff.mp stored).1
      exact .inr ⟨(Nat.div_eq_zero_iff.mp none).resolve_left nonzero, by omega⟩
    · cases impossible
  · rintro (zero | ⟨large, inside⟩)
    · exact .inl zero
    · have stored : p.inodeTableId[idx]? = some p.inodeTableId[idx] := List.getElem?_eq_getElem (by omega)
      have less := ((inodeTableId_found_iff groups tables).mpr stored).1
      exact .inr ⟨_, ⟨by omega, rfl⟩, _, ⟨counted, rfl⟩, (), less, _, stored, .inl (Nat.div_eq_of_lt large)⟩

theorem ext2InodeBlockNumber_some_iff {ino : Nat} {found : Nat × Nat} :
    ext2InodeBlockNumber p ino = some found ↔ ext2InodeBlockNumberM p ino = .ok found := by
  simp only [ext2InodeBlockNumberM, bind_ok_iff, divide_ok_iff, refuseIf_ok_iff, found_ok_iff, not_not,
    ext2InodeBlockNumber, counted, false_or]
  generalize (ino + 2^32 - 1) % 2^32 = i
  constructor
  · intro located
    split_ifs at located with none outside
    split at located
    · cases located
    · rename_i table stored
      obtain rfl := Option.some.inj located
      have less := ((inodeTableId_found_iff groups tables).mpr stored).1
      have sized : p.inodeSize ≠ 0 := by
        intro zero
        rw [zero, Nat.div_zero] at none
        exact none rfl
      exact ⟨_, ⟨sized, rfl⟩, _, ⟨counted, rfl⟩, (), less, table, stored, _, ⟨none, rfl⟩, rfl⟩
  · rintro ⟨_, ⟨-, rfl⟩, _, ⟨-, rfl⟩, _, -, table, stored, _, ⟨some, rfl⟩, located⟩
    have inside := (List.getElem?_eq_some_iff.mp stored).1
    rw [if_neg some, if_neg (by omega), stored]
    exact congrArg Option.some (Except.ok.inj located)

theorem ext2ReadInode_some_iff {ino : Nat} {inode : List Byte} :
    ext2ReadInode p ino = some inode ↔ ext2ReadInodeM p ino = .ok inode := by
  simp only [ext2ReadInodeM, bind_ok_iff, refuseIf_ok_iff, not_not]
  constructor
  · intro read
    rw [ext2ReadInode] at read
    split at read
    · cases read
    · rename_i blkno blkOffset located
      dsimp only at read
      split_ifs at read with whole
      obtain rfl := Option.some.inj read
      exact ⟨_, (ext2InodeBlockNumber_some_iff groups tables counted).mp located, (), not_not.mp whole, rfl⟩
  · rintro ⟨⟨blkno, blkOffset⟩, located, _, whole, read⟩
    rw [ext2ReadInode, (ext2InodeBlockNumber_some_iff groups tables counted).mpr located]
    dsimp only
    rw [if_neg (not_not.mpr whole)]
    exact congrArg some (Except.ok.inj read)

end Lookup

/-! ## From the superblock to the lookups -/

/-- `ext2_detect` comes to the lookup of the root inode. -/
structure Ext2Reaches (searchMode : Bool) (fd : Fd) (sb : List Byte) (blockGroups : List (List Byte)) : Prop where
  searched : ¬ (searchMode = true ∧ ext2HasBlockGroupCsum sb = false)
  blockShift : sbShift (sbLog2BlockSize sb) < 32
  fragmentShift : sbShift (sbLog2FragmentSize sb) < 32
  groups : sbGroups sb ≤ 8192
  descriptor : ext2DescriptorSize sb ≤ sizeofExt2BlockGroup
  complete : ((sbTotalBlocks sb * sbBlockBytes sb : Nat) : Int) ≤ (fd.file.size : Int) - fd.start
  loaded : sbLoadGroups sb fd = .ok blockGroups

theorem Ext2Reaches.tables {searchMode : Bool} {fd : Fd} {sb : List Byte} {blockGroups : List (List Byte)}
    (reaches : Ext2Reaches searchMode fd sb blockGroups) :
    (sbEditor sb fd blockGroups).inodeTableId.length = (sbEditor sb fd blockGroups).nBlockGroup := by
  have count := ext2LoadGroups_length reaches.loaded
  rw [sbEditor, List.length_map, count]

namespace Ext2Accepted

variable {fd : Fd} {p : Ext2PrivateData} (accepted : Ext2Accepted fd p)

include accepted

theorem few : p.nBlockGroup ≤ 8192 := by
  rw [accepted.editor]
  exact accepted.groups

theorem tables : p.inodeTableId.length = p.nBlockGroup := by
  have count := ext2LoadGroups_length accepted.loaded
  rw [accepted.editor, sbEditor, List.length_map, count]

theorem counted : p.inodesPerGroup ≠ 0 := by
  rw [accepted.editor]
  exact (ext2CheckSblock_counts accepted.checked).2

theorem sizes : 0 < p.inodeSize ∧ p.inodeSize ≤ p.blockSize := by
  have root := accepted.root
  simp only [ext2ReadInodeM, ext2InodeBlockNumberM, bind_ok_iff, divide_ok_iff] at root
  rcases root with ⟨_, ⟨_, ⟨sized, rfl⟩, _, -, _, -, _, -, _, ⟨some, -⟩, -⟩, -⟩
  rw [ne_eq, Nat.div_eq_zero_iff, not_or, Nat.not_lt] at some
  exact ⟨by omega, some.2⟩

end Ext2Accepted

theorem ext2ReadInodeM_fails_iff {p : Ext2Editor} {ino : Nat} {fail : Ext2Fail} (other : fail ≠ .error) :
    ext2ReadInodeM p ino = .error fail ↔ ext2InodeBlockNumberM p ino = .error fail := by
  simp only [ext2ReadInodeM, bind_error_iff, refuseIf_error_iff, other.symm, and_false, false_or]
  constructor
  · rintro (failed | ⟨_, -, _, -, impossible⟩)
    · exact failed
    · cases impossible
  · exact .inl

/-- The root inode is the second one, with index 1. -/
theorem ext2ReadInodeM_root_iff {searchMode : Bool} {fd : Fd} {sb : List Byte} {blockGroups : List (List Byte)}
    (checked : ext2CheckSblock sb = true) (reaches : Ext2Reaches searchMode fd sb blockGroups) :
    ext2ReadInodeM (sbEditor sb fd blockGroups) EXT2_ROOT_INO = .error .arithmetic ↔
      ¬ (0 < sbInodeBytes sb ∧ (sbInodeBytes sb ≤ sbBlockBytes sb ∨ sbGroups sb ≤ 1 / sbInodesPerGroup sb)) := by
  have counted : (sbEditor sb fd blockGroups).inodesPerGroup ≠ 0 := (ext2CheckSblock_counts checked).2
  rw [ext2ReadInodeM_fails_iff (by decide), ext2InodeBlockNumberM_arithmetic_iff reaches.groups reaches.tables counted]
  have index : (EXT2_ROOT_INO + 2 ^ 32 - 1) % 2 ^ 32 = 1 := by decide
  rw [index]
  simp only [sbEditor]
  omega

theorem ext2ReadInodeM_root_memory {searchMode : Bool} {fd : Fd} {sb : List Byte} {blockGroups : List (List Byte)}
    (reaches : Ext2Reaches searchMode fd sb blockGroups) :
    ext2ReadInodeM (sbEditor sb fd blockGroups) EXT2_ROOT_INO ≠ .error .memory := by
  rw [ne_eq, ext2ReadInodeM_fails_iff (by decide)]
  intro fails
  have index : (EXT2_ROOT_INO + 2 ^ 32 - 1) % 2 ^ 32 = 1 := by decide
  have far := ext2InodeBlockNumberM_memory reaches.groups reaches.tables fails
  have near := Nat.div_le_self 1 (sbEditor sb fd blockGroups).inodesPerGroup
  rw [index] at far
  omega

/-- Nothing undefined is computed, and an image that is not rejected has inodes that fit its blocks. -/
def Ext2DetectSafe (searchMode : Bool) (fd : Fd) : Prop :=
  (∀ fail, ext2Detect searchMode fd = .error fail → fail = .error) ∧
    ∀ p, ext2Detect searchMode fd = .ok p → 0 < p.inodeSize ∧ p.inodeSize ≤ p.blockSize ∧
      ∀ ino, ext2InodeBlockNumberM p.toExt2Editor ino ≠ .error .arithmetic

/-- The shifts are in range, and where the root inode is looked up, a block has room for an inode or the group of the
root inode does not exist. -/
def Ext2SizesSafe (searchMode : Bool) (fd : Fd) (sb : List Byte) : Prop :=
  searchMode = true ∧ ext2HasBlockGroupCsum sb = false ∨
    sbShift (sbLog2BlockSize sb) < 32 ∧ sbShift (sbLog2FragmentSize sb) < 32 ∧
      ∀ blockGroups, Ext2Reaches searchMode fd sb blockGroups →
        0 < sbInodeBytes sb ∧ (sbInodeBytes sb ≤ sbBlockBytes sb ∨ sbGroups sb ≤ 1 / sbInodesPerGroup sb)

section Detect

variable {fd : Fd} {sb : List Byte} (read : fileread (fd.fileseek SUPERBLOCK_START) sizeofExt2Sblock = some sb)
  (checked : ext2CheckSblock sb = true)

include read checked

theorem ext2Detect_fails_iff (searchMode : Bool) {fail : Ext2Fail} (other : fail ≠ .error) :
    ext2Detect searchMode fd = .error fail ↔
      ¬ (searchMode = true ∧ ext2HasBlockGroupCsum sb = false) ∧ fail = .arithmetic ∧
        (32 ≤ sbShift (sbLog2BlockSize sb) ∨ 32 ≤ sbShift (sbLog2FragmentSize sb)) ∨
      ∃ blockGroups, Ext2Reaches searchMode fd sb blockGroups ∧
        ext2ReadInodeM (sbEditor sb fd blockGroups) EXT2_ROOT_INO = .error fail := by
  have counts := ext2CheckSblock_counts checked
  unfold ext2Detect
  simp only [bind_error_iff, found_ok_iff, found_error_iff, read, refuseIf_ok_iff, refuseIf_error_iff,
    ext2SblockLog2SizeToBytes_ok_iff, ext2SblockLog2SizeToBytes_error_iff, divide_ok_iff, divide_error_iff, not_lt,
    Bool.not_eq_false, checked, Option.some.injEq, reduceCtorEq, false_and, false_or, exists_eq_left',
    other.symm, and_false, counts.1]
  constructor
  · rintro ⟨_, searched, _, -, ⟨shift, rfl⟩ | ⟨_, ⟨blockShift, rfl⟩, ⟨shift, rfl⟩ | ⟨_, ⟨fragmentShift, -⟩, _, ⟨-, rfl⟩, _, groups, _,
      descriptor, _, complete, failed | ⟨blockGroups, loaded, failed | ⟨_, -, failed | ⟨_, -, impossible⟩⟩⟩⟩⟩⟩
    · exact .inl ⟨searched, rfl, .inl shift⟩
    · exact .inl ⟨searched, rfl, .inr shift⟩
    · exact absurd (ext2LoadGroups_fails failed) other
    · exact .inr ⟨blockGroups, ⟨searched, blockShift, fragmentShift, groups, descriptor, complete, loaded⟩, failed⟩
    · rw [ext2EditorInitLayouts_eq (show 2 ^ sbShift (sbLog2BlockSize sb) ≠ 0 from (Nat.two_pow_pos _).ne')] at failed
      cases failed
    · cases impossible
  · rintro (⟨searched, rfl, shift⟩ | ⟨blockGroups, reaches, failed⟩)
    · refine ⟨(), searched, (), trivial, ?_⟩
      by_cases blockShift : 32 ≤ sbShift (sbLog2BlockSize sb)
      · exact .inl ⟨blockShift, rfl⟩
      · exact .inr ⟨_, ⟨by omega, rfl⟩, .inl ⟨shift.resolve_left blockShift, rfl⟩⟩
    · exact ⟨(), reaches.searched, (), trivial, .inr ⟨_, ⟨reaches.blockShift, rfl⟩, .inr ⟨_, ⟨reaches.fragmentShift, rfl⟩, _,
        ⟨counts.1, rfl⟩, (), reaches.groups, (), reaches.descriptor, (), reaches.complete, .inr ⟨blockGroups, reaches.loaded,
          .inl failed⟩⟩⟩⟩

end Detect

/-! Images of 8 blocks of 1024 bytes in one group. -/

def ext2Image (super : List (Nat × List Byte)) (size : Nat) : Fd :=
  ⟨(super.foldl (fun file write => file.writeAt (SUPERBLOCK_START + write.1) write.2) File.empty).writeAt (size - 1) [0], 0, 0⟩

theorem ext2Image_superblock {super : List (Nat × List Byte)} {size : Nat} (inside : 2048 ≤ (ext2Image super size).file.size) :
    fileread ((ext2Image super size).fileseek SUPERBLOCK_START) sizeofExt2Sblock =
      some ((ext2Image super size).file.slice 1024 1024) := by
  have seek (file : File) : (Fd.mk file 0 0).fileseek SUPERBLOCK_START = ⟨file, 0, 1024⟩ := by
    simp [Fd.fileseek, Fd.lseek64, SUPERBLOCK_START]
  rw [ext2Image] at *
  rw [seek]
  exact fileread_inside inside

def ext2SmallSuper (inodeSize : Nat) : List (Nat × List Byte) :=
  [(0, leBytes 4 16), (4, leBytes 4 8), (32, leBytes 4 8), (36, leBytes 4 8), (40, leBytes 4 16), (56, leBytes 2 EXT2_MAGIC),
    (76, leBytes 4 1), (88, leBytes 2 inodeSize)]

def ext2SmallSblock (inodeSize : Nat) : List Byte := (ext2Image (ext2SmallSuper inodeSize) 8192).file.slice 1024 1024

end ImgEditor
