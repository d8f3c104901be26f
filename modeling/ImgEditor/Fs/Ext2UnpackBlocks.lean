import ImgEditor.Fs.Ext2Blocks
import ImgEditor.Fs.Ext2InodeAddress
import ImgEditor.Storage.Chunks

namespace ImgEditor

open Storage

/-- The loop of `unpack_file_from_dir_blocks`. The source offset is a product of two `uint32_t`, the result of `dd` is
not looked at. -/
def ext2UnpackBlocks (junk : Nat → Byte) (p : Ext2Editor) : List Nat → Nat → Nat → Fd → Fd
  | [], _, _, fd => fd
  | blkno :: rest, filesize, copied, fd =>
    if filesize = 0 then fd
    else
      let chunkSz := min filesize p.blockSize
      let done := dd64 junk (some p.fd) (some fd) (blkno * p.blockSize % 2^32) copied chunkSz none ()
      ext2UnpackBlocks junk p rest (filesize - chunkSz) (copied + chunkSz) (done.dst.getD fd)

def unpackFileFromDirBlocks (junk : Nat → Byte) (p : Ext2Editor) (inode : List Byte) (fd : Fd) : Int × Fd :=
  match ext2InodeBlocksRead p inode ⟨[], none⟩ with
  | none => (-1, fd)
  | some b =>
    let filesize := inodeSizeLow inode
    if b.blocks.length * p.blockSize % 2^64 < filesize then (-1, fd)
    else (0, ext2UnpackBlocks junk p b.blocks filesize 0 fd)

def Ext2FileByte (p : Ext2Editor) (inode : List Byte) (o : Nat) (value : Byte) : Prop :=
  ∃ blkno, ext2FileBlock p inode (o / p.blockSize) = some blkno ∧
    if blkno = 0 then value = 0#8
    else p.fd.start + blkno * p.blockSize + o % p.blockSize < p.fd.file.size ∧
      value = p.fd.file.byte (p.fd.start + blkno * p.blockSize + o % p.blockSize)

def Ext2DirBlocksUnpack (junk : Nat → Byte) (p : Ext2Editor) (inode : List Byte) : Prop :=
  let written := (unpackFileFromDirBlocks junk p inode Fd.created).2.file
  written.size = inodeSize64 inode ∧ ∀ o < inodeSize64 inode, Ext2FileByte p inode o (written.byte o)

def listedPlace (p : Ext2Editor) (blocks : List Nat) (o : Nat) : Nat :=
  p.fd.start + blocks.getD (o / p.blockSize) 0 * p.blockSize % 2^32 + o % p.blockSize

def HoleBefore (p : Ext2Editor) (inode : List Byte) (o : Nat) : Prop :=
  ∃ k ≤ o / p.blockSize, ext2FileBlock p inode k = some 0

structure DirBlocksFit (p : Ext2Editor) (inode : List Byte) (blocks : List Nat) : Prop where
  enough : inodeSizeLow inode ≤ blocks.length * p.blockSize % 2^64
  solid : ∀ o < inodeSizeLow inode, ¬ HoleBefore p inode o → ∃ blkno, ext2FileBlock p inode (o / p.blockSize) = some blkno ∧
    p.fd.start + blkno * p.blockSize + o % p.blockSize < p.fd.file.size ∧
      p.fd.file.byte (p.fd.start + blkno * p.blockSize % 2^32 + o % p.blockSize) =
        p.fd.file.byte (p.fd.start + blkno * p.blockSize + o % p.blockSize)
  moved : ∀ o < inodeSizeLow inode, HoleBefore p inode o → Ext2FileByte p inode o (p.fd.file.byte (listedPlace p blocks o))
  last : HoleBefore p inode (inodeSizeLow inode - 1) → listedPlace p blocks (inodeSizeLow inode - 1) < p.fd.file.size

/-- Nothing is to be written, or there are enough blocks and they show the file. -/
def DirBlocksUnpackable (p : Ext2Editor) (inode : List Byte) : Prop :=
  inodeSizeHigh inode = 0 ∧
    (inodeSizeLow inode ≠ 0 → ∃ blocks, ext2BlocksListed p inode = some blocks ∧ DirBlocksFit p inode blocks)

section Unpack

variable {p : Ext2Editor} (positive : 0 < p.blockSize) (near : p.fd.start + 2^32 ≤ 2^63)

include near

theorem ext2UnpackBlocks_chunks (junk : Nat → Byte) (blocks : List Nat) {filesize copied : Nat} {fd : Fd} (plain : fd.start = 0)
    (small : copied + filesize < 2 ^ 32) :
    (ext2UnpackBlocks junk p blocks filesize copied fd).file =
      copyChunks p.fd.file p.blockSize (blocks.map fun blkno => p.fd.start + blkno * p.blockSize % 2^32) filesize copied
        fd.file := by
  induction blocks generalizing filesize copied fd with
  | nil => rfl
  | cons blkno rest ih =>
    rw [ext2UnpackBlocks, List.map_cons, copyChunks]
    by_cases done : filesize = 0
    · rw [if_pos done, if_pos done]
    rw [if_neg done, if_neg done]
    have place := Nat.mod_lt (blkno * p.blockSize) (show 0 < 2 ^ 32 by decide)
    rcases dd64_files junk p.fd fd (min filesize p.blockSize) (show p.fd.start + blkno * p.blockSize % 2^32 < 2 ^ 63 by omega)
      (show fd.start + copied < 2 ^ 63 by omega) with ⟨pos, target⟩
    dsimp only
    rw [target, Option.getD_some, plain, Nat.zero_add]
    exact ih rfl (by omega)

include positive

theorem unpacked_bytes (junk : Nat → Byte) {inode : List Byte} {blocks : List Nat} (listed : ext2BlocksListed p inode = some blocks)
    (some_ : 0 < inodeSizeLow inode) (enough : inodeSizeLow inode ≤ blocks.length * p.blockSize % 2^64) :
    let written := (unpackFileFromDirBlocks junk p inode Fd.created).2.file
    written.size ≤ inodeSizeLow inode ∧
      (written.size = inodeSizeLow inode ↔ listedPlace p blocks (inodeSizeLow inode - 1) < p.fd.file.size) ∧
        ∀ o < inodeSizeLow inode, written.byte o = p.fd.file.byte (listedPlace p blocks o) := by
  have whole := enough.trans (Nat.mod_le _ _)
  have word : inodeSizeLow inode < 2 ^ 32 := leField_lt inode 4 4
  have written : (unpackFileFromDirBlocks junk p inode Fd.created).2.file =
      copyChunks p.fd.file p.blockSize (blocks.map fun blkno => p.fd.start + blkno * p.blockSize % 2^32) (inodeSizeLow inode) 0
        File.empty := by
    rw [unpackFileFromDirBlocks, ext2InodeBlocksRead_eq, listed, Option.map_some]
    dsimp only [Ext2InodeBlocks.add]
    rw [List.nil_append, if_neg (by omega)]
    exact ext2UnpackBlocks_chunks near junk blocks rfl (by omega)
  have place (o : Nat) (inside : o < inodeSizeLow inode) :
      (blocks.map fun blkno => p.fd.start + blkno * p.blockSize % 2^32).getD (o / p.blockSize) 0 + o % p.blockSize =
        listedPlace p blocks o := by
    have index : o / p.blockSize < blocks.length := (Nat.div_lt_iff_lt_mul positive).mpr (by omega)
    rw [listedPlace, List.getD_eq_getElem _ _ (by rwa [List.length_map]), List.getElem_map, List.getD_eq_getElem _ _ index]
  have size := @copyChunks_size p.fd.file p.blockSize positive (blocks.map fun blkno => p.fd.start + blkno * p.blockSize % 2^32)
    (inodeSizeLow inode) 0 File.empty (by rwa [List.length_map]) (Nat.le_refl 0) some_
  rw [place _ (by omega), Nat.zero_add] at size
  dsimp only
  rw [written]
  refine ⟨size.1, size.2, ?_⟩
  intro o inside
  rw [copyChunks_byte positive (by rwa [List.length_map]) (Nat.le_refl 0), if_neg (Nat.not_lt_zero o), Nat.sub_zero, if_pos inside,
    place o inside]

end Unpack

theorem listed_solid {p : Ext2Editor} {inode : List Byte} {blocks : List Nat} (listed : ext2BlocksListed p inode = some blocks)
    {o blkno : Nat} (solid : ¬ HoleBefore p inode o) (mapped : ext2FileBlock p inode (o / p.blockSize) = some blkno) :
    blocks.getD (o / p.blockSize) 0 = blkno := by
  have agrees := ext2BlocksListed_agrees listed (o / p.blockSize + 1) (o / p.blockSize + 1) (Nat.le_refl _) fun i less hole =>
    solid ⟨i, Nat.le_of_lt_succ less, hole⟩
  rw [List.getD_eq_getElem?_getD, agrees.2 _ (Nat.lt_succ_self _), mapped, Option.getD_some]

theorem solid_present {p : Ext2Editor} {inode : List Byte} {o blkno : Nat} (solid : ¬ HoleBefore p inode o)
    (mapped : ext2FileBlock p inode (o / p.blockSize) = some blkno) : blkno ≠ 0 := by
  rintro rfl
  exact solid ⟨_, Nat.le_refl _, mapped⟩

/-- When there is something to write, too few blocks leave the file empty. -/
theorem unpackFileFromDirBlocks_fails (junk : Nat → Byte) {p : Ext2Editor} {inode : List Byte}
    (fails : ∀ blocks, ext2BlocksListed p inode = some blocks → ¬ inodeSizeLow inode ≤ blocks.length * p.blockSize % 2^64) :
    unpackFileFromDirBlocks junk p inode Fd.created = (-1, Fd.created) := by
  rw [unpackFileFromDirBlocks, ext2InodeBlocksRead_eq]
  cases listed : ext2BlocksListed p inode with
  | none => rfl
  | some blocks =>
    have few := fails blocks listed
    rw [Option.map_some]
    dsimp only [Ext2InodeBlocks.add]
    rw [List.nil_append, if_pos (by omega)]

theorem unpackFileFromDirBlocks_empty (junk : Nat → Byte) {p : Ext2Editor} {inode : List Byte} (empty : inodeSizeLow inode = 0) :
    (unpackFileFromDirBlocks junk p inode Fd.created).2 = Fd.created := by
  rw [unpackFileFromDirBlocks, empty]
  cases ext2InodeBlocksRead p inode ⟨[], none⟩ with
  | none => rfl
  | some b =>
    dsimp only
    rw [if_neg (Nat.not_lt_zero _)]
    cases b.blocks with
    | nil => rfl
    | cons blkno rest => rw [ext2UnpackBlocks, if_pos rfl]

theorem dirBlocksFit_iff {p : Ext2Editor} {inode : List Byte} {blocks : List Nat} (listed : ext2BlocksListed p inode = some blocks)
    (some_ : inodeSizeLow inode ≠ 0) (enough : inodeSizeLow inode ≤ blocks.length * p.blockSize % 2^64) :
    DirBlocksFit p inode blocks ↔ listedPlace p blocks (inodeSizeLow inode - 1) < p.fd.file.size ∧
      ∀ o < inodeSizeLow inode, Ext2FileByte p inode o (p.fd.file.byte (listedPlace p blocks o)) := by
  constructor
  · intro fit
    constructor
    · by_cases hole : HoleBefore p inode (inodeSizeLow inode - 1)
      · exact fit.last hole
      · rcases fit.solid _ (by omega) hole with ⟨blkno, mapped, inside, -⟩
        have wrapped := Nat.mod_le (blkno * p.blockSize) (2 ^ 32)
        rw [listedPlace, listed_solid listed hole mapped]
        omega
    · intro o inside
      by_cases hole : HoleBefore p inode o
      · exact fit.moved o inside hole
      · rcases fit.solid o inside hole with ⟨blkno, mapped, stored, same⟩
        refine ⟨blkno, mapped, ?_⟩
        rw [if_neg (solid_present hole mapped), listedPlace, listed_solid listed hole mapped]
        exact ⟨stored, same⟩
  · rintro ⟨last, bytes⟩
    refine ⟨enough, ?_, fun o inside _ => bytes o inside, fun _ => last⟩
    intro o inside solid
    rcases bytes o inside with ⟨blkno, mapped, shown⟩
    rw [if_neg (solid_present solid mapped), listedPlace, listed_solid listed solid mapped] at shown
    exact ⟨blkno, mapped, shown⟩

theorem unpackFileFromDirBlocks_iff {searchMode : Bool} {fd : Fd} {p : Ext2PrivateData}
    (detected : ext2Detect searchMode fd = .ok p) (near : fd.start + 2^32 ≤ 2^63) (junk : Nat → Byte) (inode : List Byte) :
    Ext2DirBlocksUnpack junk p.toExt2Editor inode ↔ DirBlocksUnpackable p.toExt2Editor inode := by
  have accepted := ext2Detect_accepted detected
  have positive : 0 < p.blockSize := by
    have sizes := accepted.sizes
    omega
  have start : p.fd.start + 2^32 ≤ 2^63 := by
    rw [accepted.editor]
    exact near
  unfold Ext2DirBlocksUnpack DirBlocksUnpackable
  by_cases empty : inodeSizeLow inode = 0
  · have size : inodeSize64 inode = 0 ↔ inodeSizeHigh inode = 0 := by
      unfold inodeSize64
      omega
    have nothing : Fd.created.file.size = 0 := rfl
    rw [unpackFileFromDirBlocks_empty junk empty]
    dsimp only
    rw [nothing]
    constructor
    · intro written
      exact ⟨size.mp written.1.symm, fun some_ => absurd empty some_⟩
    · intro none
      have zero := size.mpr none.1
      refine ⟨zero.symm, ?_⟩
      intro o inside
      omega
  have large : inodeSizeLow inode ≤ inodeSize64 inode := Nat.le_add_left _ _
  by_cases fits : ∃ blocks, ext2BlocksListed p.toExt2Editor inode = some blocks ∧
      inodeSizeLow inode ≤ blocks.length * p.blockSize % 2^64
  · rcases fits with ⟨blocks, listed, enough⟩
    rcases unpacked_bytes positive start junk listed (Nat.pos_of_ne_zero empty) enough with ⟨bound, size, bytes⟩
    have fit := dirBlocksFit_iff listed empty enough
    constructor
    · rintro ⟨whole, shown⟩
      have high : inodeSizeHigh inode = 0 := by
        unfold inodeSize64 at whole
        omega
      have low : inodeSize64 inode = inodeSizeLow inode := by
        unfold inodeSize64
        omega
      refine ⟨high, fun _ => ⟨blocks, listed, fit.mpr ⟨size.mp (by omega), ?_⟩⟩⟩
      intro o inside
      rw [← bytes o inside]
      exact shown o (by omega)
    · rintro ⟨high, shown⟩
      have low : inodeSize64 inode = inodeSizeLow inode := by
        unfold inodeSize64
        omega
      rcases shown empty with ⟨blocks', listed', stored⟩
      obtain rfl := Option.some.inj (listed.symm.trans listed')
      rcases fit.mp stored with ⟨last, values⟩
      rw [low]
      refine ⟨size.mpr last, ?_⟩
      intro o inside
      rw [bytes o inside]
      exact values o inside
  · have failed := @unpackFileFromDirBlocks_fails junk p.toExt2Editor inode fun blocks listed enough =>
      fits ⟨blocks, listed, enough⟩
    rw [failed]
    apply iff_of_false
    · rintro ⟨whole, -⟩
      have nothing : (0 : Nat) = inodeSize64 inode := whole
      omega
    · rintro ⟨-, shown⟩
      rcases shown empty with ⟨blocks, listed, fit⟩
      exact fits ⟨blocks, listed, fit.enough⟩

/-! Images of 8 blocks of 2 KiB with inode 12 behind the fields that are written. -/

def ext2FileSuper (fields : List (Nat × List Byte)) : List (Nat × List Byte) :=
  [(0, leBytes 4 16), (4, leBytes 4 8), (24, leBytes 4 1), (28, leBytes 4 1), (32, leBytes 4 8), (36, leBytes 4 8),
    (40, leBytes 4 16), (56, leBytes 2 EXT2_MAGIC), (1024 + 8, leBytes 4 3)] ++
    fields.map fun field => (2 * 2048 + 1024 + 11 * 128 + field.1, field.2)

def ext2FileImage (fields : List (Nat × List Byte)) : Fd := ext2Image (ext2FileSuper fields) 16384

def ext2FileInode (fields : List (Nat × List Byte)) : List Byte := (ext2FileImage fields).file.slice (3 * 2048 + 11 * 128) 128

def ext2ShortFile : List (Nat × List Byte) := [(0, leBytes 2 0x81a4), (4, leBytes 4 100), (40, leBytes 4 5)]

def ext2HoleFile : List (Nat × List Byte) := [(0, leBytes 2 0x81a4), (4, leBytes 4 4096), (40, leBytes 4 5)]

theorem unpackFileFromDirBlocks_iff_short : ∃ p, ext2Detect false (ext2FileImage ext2ShortFile) = .ok p ∧
    ∀ junk, Ext2DirBlocksUnpack junk p.toExt2Editor (ext2FileInode ext2ShortFile) := by
  rcases @ext2Detect_image (ext2FileImage ext2ShortFile) ((ext2FileImage ext2ShortFile).file.slice 1024 1024) 2048 128 1 16 [3]
    (ext2Image_superblock (by decide +kernel)) (by decide +kernel) (by decide +kernel) (by decide +kernel) (by decide +kernel)
    (by decide +kernel) (by decide +kernel) (by decide +kernel) with ⟨p, detected, -, editor⟩
  refine ⟨p, detected, fun junk => (unpackFileFromDirBlocks_iff detected (by decide) junk _).mpr ?_⟩
  have size : inodeSizeLow (ext2FileInode ext2ShortFile) = 100 := by decide +kernel
  have listed : ext2BlocksListed p.toExt2Editor (ext2FileInode ext2ShortFile) = some [5] := by
    rw [editor]
    decide +kernel
  have first : ext2FileBlock p.toExt2Editor (ext2FileInode ext2ShortFile) 0 = some 5 := by
    rw [editor]
    decide +kernel
  have block (o : Nat) (inside : o < 100) : o / p.blockSize = 0 ∧ o % p.blockSize = o := by
    rw [editor]
    exact ⟨Nat.div_eq_of_lt (show o < 2048 by omega), Nat.mod_eq_of_lt (show o < 2048 by omega)⟩
  have solid (o : Nat) (inside : o < 100) : ¬ HoleBefore p.toExt2Editor (ext2FileInode ext2ShortFile) o := by
    rintro ⟨k, below, hole⟩
    rw [(block o inside).1, Nat.le_zero] at below
    rw [below, first] at hole
    exact absurd (Option.some.inj hole) (by decide)
  refine ⟨by decide +kernel, fun _ => ⟨_, listed, ?_, ?_, ?_, ?_⟩⟩
  · rw [size, editor]
    decide
  · rw [size]
    intro o inside _
    rw [(block o inside).1, (block o inside).2]
    refine ⟨5, first, ?_⟩
    rw [editor]
    have length : (ext2FileImage ext2ShortFile).file.size = 16384 := by decide +kernel
    have start : (ext2FileImage ext2ShortFile).start = 0 := rfl
    dsimp only
    rw [length, start]
    exact ⟨by omega, rfl⟩
  · rw [size]
    intro o inside hole
    exact absurd hole (solid o inside)
  · rw [size]
    intro hole
    exact absurd hole (solid 99 (by decide))

/-- The list ends in front of the hole, and nothing is written. -/
theorem unpackFileFromDirBlocks_hole : ∃ p, ext2Detect false (ext2FileImage ext2HoleFile) = .ok p ∧
    ext2ReadInode p.toExt2Editor 12 = some (ext2FileInode ext2HoleFile) ∧
      ∀ junk, ¬ Ext2DirBlocksUnpack junk p.toExt2Editor (ext2FileInode ext2HoleFile) := by
  rcases @ext2Detect_image (ext2FileImage ext2HoleFile) ((ext2FileImage ext2HoleFile).file.slice 1024 1024) 2048 128 1 16 [3]
    (ext2Image_superblock (by decide +kernel)) (by decide +kernel) (by decide +kernel) (by decide +kernel) (by decide +kernel)
    (by decide +kernel) (by decide +kernel) (by decide +kernel) with ⟨p, detected, -, editor⟩
  refine ⟨p, detected, ?_, ?_⟩
  · rw [editor]
    decide +kernel
  · intro junk
    have listed : ext2BlocksListed p.toExt2Editor (ext2FileInode ext2HoleFile) = some [5] := by
      rw [editor]
      decide +kernel
    have few (blocks : List Nat) (list : ext2BlocksListed p.toExt2Editor (ext2FileInode ext2HoleFile) = some blocks) :
        ¬ inodeSizeLow (ext2FileInode ext2HoleFile) ≤ blocks.length * p.blockSize % 2^64 := by
      obtain rfl := Option.some.inj (listed.symm.trans list)
      rw [editor]
      decide +kernel
    rintro ⟨whole, -⟩
    rw [unpackFileFromDirBlocks_fails junk few] at whole
    revert whole
    decide +kernel

end ImgEditor
