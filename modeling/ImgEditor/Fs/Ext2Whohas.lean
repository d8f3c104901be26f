import ImgEditor.Fs.Ext2InodeMarks

namespace ImgEditor

open Storage

def sbFreeInodes (sb : List Byte) : Nat := leField sb 16 4

def inodesScanned (sb : List Byte) : Nat := (toInt32 ((sbTotalInodes sb : Int) - sbFreeInodes sb)).toNat

/-- `ext2_whohas_blkno` with the inode that it finds. -/
def ext2WhohasBlkno (junk : Nat → Memory) (p : Ext2PrivateData) (whichBlk : Nat) : Option Nat :=
  (List.range' 1 (inodesScanned p.sblock)).find? fun ino =>
    match ext2InodeMarks junk p.toExt2Editor (sbTotalBlocks p.sblock) ino with
    | none => false
    | some dataBlocks => dataBlocks.get whichBlk ≠ 0

/-- An inode that is found refers to the block, and one is found for every file in use that does. -/
structure WhohasRight (junk : Nat → Memory) (p : Ext2PrivateData) (blk : Nat) : Prop where
  owner : ∀ ino, ext2WhohasBlkno junk p blk = some ino → FileRefers p ino blk
  found : ∀ ino, FileInUse p ino → FileRefers p ino blk → ext2WhohasBlkno junk p blk ≠ none

def Answers (junk : Nat → Memory) (p : Ext2PrivateData) (blk ino : Nat) : Prop :=
  Ext2Compared junk p.toExt2Editor ino ∧ (sbTotalBlocks p.sblock ≤ blk ∨ Ext2Marked junk p.toExt2Editor ino blk)

/-- Where an inode may answer for a block that it does not refer to: a block outside of the image, an inode that is
not read at its place, the resize inode with extents, or extents that are not all valid and written. -/
def Deviates (p : Ext2PrivateData) (blk ino : Nat) : Prop :=
  sbTotalBlocks p.sblock ≤ blk ∨ ext2ReadInode p.toExt2Editor ino ≠ storedInode p ino ∨
    ∃ inode, storedInode p ino = some inode ∧ inodeFlags inode &&& EXT4_EXTENTS_FL ≠ 0 ∧
      (ino = EXT2_RESIZE_INO ∨ ¬ PlainExtents p.toExt2Editor inode)

def Scanned (p : Ext2PrivateData) (ino : Nat) : Prop := 1 ≤ ino ∧ ino ≤ inodesScanned p.sblock

/-- Where a file may not answer for a block that it refers to: a number behind the scan, an inode that is not read at its
place, the resize inode, one without a size or a time, a block behind a hole of the map or with an index that cannot be
read, or extents that are not valid. -/
def Missed (p : Ext2PrivateData) (blk ino : Nat) : Prop :=
  inodesScanned p.sblock < ino ∨ ext2ReadInode p.toExt2Editor ino ≠ storedInode p ino ∨
    ∃ inode, storedInode p ino = some inode ∧
      (ino = EXT2_RESIZE_INO ∨ inodeSize64 inode = 0 ∨ inodeCtime inode = 0 ∨
        if inodeFlags inode &&& EXT4_EXTENTS_FL = 0 then
          ext2BlocksListed p.toExt2Editor inode = none ∨ blk ∉ ext2BlocksVisited p.toExt2Editor inode
        else ¬ ValidExtents p.toExt2Editor inode)

/-- The first inode that answers refers to the block even where it deviates, and another inode answers for a file that
is missed. -/
structure WhohasFits (junk : Nat → Memory) (p : Ext2PrivateData) (blk : Nat) : Prop where
  owner : ∀ ino, Scanned p ino → Answers junk p blk ino → (∀ j, 1 ≤ j → j < ino → ¬ Answers junk p blk j) →
    Deviates p blk ino → FileRefers p ino blk
  found : ∀ ino, FileInUse p ino → FileRefers p ino blk → Missed p blk ino → ∃ other, Scanned p other ∧ Answers junk p blk other

section Scan

variable {junk : Nat → Memory} {p : Ext2PrivateData} {blk ino : Nat}

theorem marks_answers_iff (junk : Nat → Memory) (p : Ext2PrivateData) (blk ino : Nat) :
    (match ext2InodeMarks junk p.toExt2Editor (sbTotalBlocks p.sblock) ino with
      | none => false
      | some dataBlocks => decide (dataBlocks.get blk ≠ 0)) = true ↔ Answers junk p blk ino := by
  have spec := ext2InodeMarks_spec junk p.toExt2Editor (sbTotalBlocks p.sblock) ino
  cases marks : ext2InodeMarks junk p.toExt2Editor (sbTotalBlocks p.sblock) ino with
  | none =>
    rw [marks] at spec
    exact iff_of_false Bool.false_ne_true fun answers => spec answers.1
  | some b =>
    rw [marks] at spec
    rcases spec with ⟨compared, marked⟩
    rw [decide_eq_true_iff, marked.get_iff blk]
    exact (and_iff_right compared).symm

theorem ext2WhohasBlkno_some_iff : ext2WhohasBlkno junk p blk = some ino ↔
    Scanned p ino ∧ Answers junk p blk ino ∧ ∀ j, 1 ≤ j → j < ino → ¬ Answers junk p blk j := by
  have none (j : Nat) := not_congr (marks_answers_iff junk p blk j)
  unfold ext2WhohasBlkno Scanned
  rw [List.find?_range'_eq_some, List.mem_range'_1, marks_answers_iff]
  simp only [Bool.not_eq_true', ← Bool.not_eq_true, none]
  constructor
  · rintro ⟨answers, inside, first⟩
    exact ⟨⟨inside.1, by omega⟩, answers, first⟩
  · rintro ⟨inside, answers, first⟩
    exact ⟨answers, ⟨inside.1, by omega⟩, first⟩

theorem ext2WhohasBlkno_ne_none_iff : ext2WhohasBlkno junk p blk ≠ none ↔ ∃ ino, Scanned p ino ∧ Answers junk p blk ino := by
  unfold ext2WhohasBlkno Scanned
  rw [← Option.isSome_iff_ne_none, List.find?_isSome]
  constructor
  · rintro ⟨ino, member, answers⟩
    rw [List.mem_range'_1] at member
    exact ⟨ino, ⟨member.1, by omega⟩, (marks_answers_iff junk p blk ino).mp answers⟩
  · rintro ⟨ino, inside, answers⟩
    exact ⟨ino, List.mem_range'_1.mpr ⟨inside.1, by omega⟩, (marks_answers_iff junk p blk ino).mpr answers⟩

theorem fileRefers_of_answers (answers : Answers junk p blk ino) (plain : ¬ Deviates p blk ino) : FileRefers p ino blk := by
  rcases not_or.mp plain with ⟨inside, more⟩
  rcases not_or.mp more with ⟨place, extents⟩
  rcases answers.2.resolve_left inside with ⟨inode, read, marked⟩
  have stored : storedInode p ino = some inode := by
    rw [← Decidable.not_not.mp place]
    exact read
  refine ⟨inode, stored, ?_⟩
  unfold InodeRefers
  by_cases map : inodeFlags inode &&& EXT4_EXTENTS_FL = 0
  · rw [if_pos map]
    rw [if_pos map] at marked
    split at marked
    · refine ⟨(2, inodeDoubleIndirBlock inode), List.mem_append_right _ ?_, marked.1, .inl marked.2⟩
      exact List.mem_cons_of_mem _ List.mem_cons_self
    · exact mapRefers_of_visited marked
  · rw [if_neg map]
    rw [if_neg map] at marked
    have usual : ino ≠ EXT2_RESIZE_INO := fun resize => extents ⟨inode, stored, map, .inl resize⟩
    have valid : PlainExtents p.toExt2Editor inode := by
      by_contra broken
      exact extents ⟨inode, stored, map, .inr broken⟩
    rw [if_neg usual] at marked
    rcases marked with ⟨it, done, covered⟩
    exact extentsRefer_of_marked read valid done covered

theorem answers_of_fileRefers (used : FileInUse p ino) (refers : FileRefers p ino blk) (kept : ¬ Missed p blk ino) :
    Scanned p ino ∧ Answers junk p blk ino := by
  rcases not_or.mp kept with ⟨inside, more⟩
  rcases not_or.mp more with ⟨place, plain⟩
  rcases refers with ⟨inode, stored, named⟩
  rcases used with ⟨first, _, _, same, again, searched⟩
  rw [← Option.some.inj (stored.symm.trans again)] at searched
  have read : ext2ReadInode p.toExt2Editor ino = some inode := by
    rw [Decidable.not_not.mp place]
    exact stored
  have usual : ino ≠ EXT2_RESIZE_INO := fun resize => plain ⟨inode, stored, .inl resize⟩
  have filled : inodeSize64 inode ≠ 0 := fun zero => plain ⟨inode, stored, .inr (.inl zero)⟩
  have created : inodeCtime inode ≠ 0 := fun zero => plain ⟨inode, stored, .inr (.inr (.inl zero))⟩
  refine ⟨⟨first, Nat.le_of_not_lt inside⟩, ?_⟩
  unfold Answers
  rw [ext2Compared_iff read usual, ext2Marked_iff read, if_neg usual]
  unfold InodeRefers at named
  by_cases map : inodeFlags inode &&& EXT4_EXTENTS_FL = 0
  · rw [if_pos map, if_pos map]
    have front : ¬ (ext2BlocksListed p.toExt2Editor inode = none ∨ blk ∉ ext2BlocksVisited p.toExt2Editor inode) := by
      intro hidden
      refine plain ⟨inode, stored, .inr (.inr (.inr ?_))⟩
      rw [if_pos map]
      exact hidden
    rcases not_or.mp front with ⟨listed, visited⟩
    exact ⟨⟨filled, created, searched, listed⟩, .inr (Decidable.not_not.mp visited)⟩
  · rw [if_neg map, if_neg map]
    rw [if_neg map] at named
    have valid : ValidExtents p.toExt2Editor inode := by
      by_contra broken
      refine plain ⟨inode, stored, .inr (.inr (.inr ?_))⟩
      rw [if_neg map]
      exact broken
    rcases marked_of_extentsRefer read valid named with ⟨it, done, covered⟩
    exact ⟨⟨filled, created, searched, it, done⟩, .inr ⟨it, done, covered⟩⟩

end Scan

/-- An image with 16 inodes of which number 12 is in use, a file with the one block 6. -/
def oneFileImage (freeInodes : Nat) : Fd :=
  ext2Image [(0, leBytes 4 16), (4, leBytes 4 8), (16, leBytes 4 freeInodes), (24, leBytes 4 1), (28, leBytes 4 1),
    (32, leBytes 4 8), (36, leBytes 4 8), (40, leBytes 4 16), (56, leBytes 2 EXT2_MAGIC), (76, leBytes 4 1), (88, leBytes 2 128),
    (1024, leBytes 4 2 ++ leBytes 4 3 ++ leBytes 4 4), (5120, [0x00#8, 0x08#8]),
    (8576, leBytes 2 INODE_MODE_S_IFREG ++ leBytes 2 0 ++ leBytes 4 1 ++ leBytes 4 0 ++ leBytes 4 1), (8616, leBytes 4 6)] 16384

def oneFileSblock (freeInodes : Nat) : List Byte := (oneFileImage freeInodes).file.slice 1024 1024

def oneFileInode : List Byte := (oneFileImage 15).file.slice 9600 128

def OneFile (freeInodes : Nat) (p : Ext2PrivateData) : Prop :=
  p.sblock = oneFileSblock freeInodes ∧ p.toExt2Editor = ⟨oneFileImage freeInodes, 2048, 128, 1, 16, [4]⟩

section OneFile

variable {freeInodes : Nat} (either : freeInodes = 15 ∨ freeInodes = 4)

include either

theorem oneFile_detected : ∃ p, ext2Detect false (oneFileImage freeInodes) = .ok p ∧ OneFile freeInodes p := by
  refine @ext2Detect_image (oneFileImage freeInodes) (oneFileSblock freeInodes) 2048 128 1 16 [4]
    (ext2Image_superblock ?_) ?_ ?_ ?_ ?_ ?_ ?_ ?_
  all_goals
    rcases either with rfl | rfl
    · decide +kernel
    · decide +kernel

theorem oneFile_stored {p : Ext2PrivateData} (one : OneFile freeInodes p) : storedInode p 12 = some oneFileInode := by
  unfold storedInode inodeDescriptor storedDescriptor
  rw [one.1, one.2]
  rcases either with rfl | rfl
  · decide +kernel
  · decide +kernel

theorem oneFile_used {p : Ext2PrivateData} (one : OneFile freeInodes p) : FileInUse p 12 := by
  have total : 12 ≤ sbTotalInodes p.sblock := by
    rw [one.1]
    rcases either with rfl | rfl
    · decide +kernel
    · decide +kernel
  have used : inodeInUse p 12 = true := by
    unfold inodeInUse inodeDescriptor storedDescriptor
    rw [one.1, one.2]
    rcases either with rfl | rfl
    · decide +kernel
    · decide +kernel
  exact ⟨by decide, total, used, oneFileInode, oneFile_stored either one, by decide +kernel⟩

theorem oneFile_refers {p : Ext2PrivateData} (one : OneFile freeInodes p) : FileRefers p 12 6 := by
  refine ⟨oneFileInode, oneFile_stored either one, ?_⟩
  unfold InodeRefers
  rw [if_pos (by decide +kernel)]
  exact ⟨(0, 6), by decide +kernel, by decide, BlockIndex.holds_root 0 6⟩

end OneFile

/-- With 15 inodes free the search ends after inode 1. -/
theorem oneFile_missed {p : Ext2PrivateData} (one : OneFile 15 p) : ext2WhohasBlkno (fun _ _ => 0#8) p 6 = none := by
  unfold ext2WhohasBlkno
  rw [one.1, one.2]
  decide +kernel

end ImgEditor
