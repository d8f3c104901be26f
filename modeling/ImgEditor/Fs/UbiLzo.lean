import ImgEditor.Core.LzoDecompress
import ImgEditor.Fs.UbiUnpackFile

namespace ImgEditor

open Storage Storage.Lz77

/-- What a caller of the decompressor gets: the bytes of the buffer, or none where the status is negative. -/
def lzoBuffer (opt : LzoOpt) (src : List Byte) (bufSz : Nat) : Option (List Byte) :=
  match lzo1xDecompressSafe opt src bufSz with
  | some (.ret status out) => if status.code < 0 then none else some out
  | _ => none

/-- A volume that is read with the decompressor of the program. -/
def UbiVolume.withLzo (p : UbiVolume) (opt : LzoOpt) : UbiVolume := { p with lzo1xDecompressSafe := lzoBuffer opt }

def lzoPayload (dnode : List Byte) : List Byte := (dnode.drop 48).take (leField dnode 16 4 - 48)

/-- A data node whose bytes are `content`, as they stand or packed. -/
structure PackedBlock (dnode content : List Byte) : Prop where
  size : leField dnode 40 4 = content.length
  packed : leField dnode 44 2 = UBIFS_COMPR_NONE ∧ (dnode.drop 48).take content.length = content ∨
    leField dnode 44 2 = UBIFS_COMPR_LZO ∧
      ∃ tokens, LzoSpells [] .start (lzoPayload dnode) tokens ∧ expand [] tokens = some content

def fileBlock (content : List Byte) (block : Nat) : List Byte :=
  (content.drop (block * UBIFS_BLOCK_SIZE)).take UBIFS_BLOCK_SIZE

/-- An index under whose inode the blocks of `content` are stored; what no node stores is zero. -/
structure PackedFile (p : UbiVolume) (ino : BitVec 32) (content : List Byte) : Prop where
  index : DentIndex p.root
  small : content.length ≤ 2 ^ 32
  distinct : ((dataLeafs p.root ino).map UbiLeafNode.hash).Nodup
  inside : ∀ leaf ∈ dataLeafs p.root ino, leaf.hash * UBIFS_BLOCK_SIZE < content.length
  stored : ∀ leaf ∈ dataLeafs p.root ino, ∃ dnode, ubiAllocReadCh p leaf.selfLnum leaf.selfOffs = some dnode ∧
    chNodeType dnode = UBIFS_DATA_NODE ∧ PackedBlock dnode (fileBlock content leaf.hash)
  holes : ∀ offset, (∀ leaf ∈ dataLeafs p.root ino, leaf.hash ≠ offset / UBIFS_BLOCK_SIZE) → content.getD offset 0#8 = 0#8

section Blocks

variable {p : UbiVolume} {opt : LzoOpt} {dnode content : List Byte}

theorem lzoBuffer_spelled {src : List Byte} {bufSz : Nat} {tokens : List (Token Byte)} {out : List Byte}
    (spells : LzoSpells [] .start src tokens) (expanded : expand [] tokens = some out) (room : out.length ≤ bufSz)
    (short : src.length < 2 ^ 56) : lzoBuffer opt src bufSz = some out := by
  rw [lzoBuffer, lzo1xDecompressSafe_complete opt spells expanded room short]
  rfl

theorem lzoPayload_length (dnode : List Byte) : (lzoPayload dnode).length < 2 ^ 56 := by
  have bound := leField_lt dnode 16 4
  have taken := List.length_take_le (leField dnode 16 4 - 48) (dnode.drop 48)
  rw [lzoPayload]
  omega

/-- A packed block that fits the buffer comes out of it. -/
theorem PackedBlock.decompress (packed : PackedBlock dnode content) {bufSz : Nat} (room : content.length ≤ bufSz) :
    ubiDataNodeDecompress (p.withLzo opt) dnode bufSz = some content := by
  obtain ⟨size, plain | compressed⟩ := packed
  · obtain ⟨kind, bytes⟩ := plain
    rw [ubiDataNodeDecompress, if_pos kind, ubiDataNodeDecompressNone, size, Nat.min_eq_left room, bytes]
  · obtain ⟨kind, tokens, spells, expanded⟩ := compressed
    have other : leField dnode 44 2 ≠ UBIFS_COMPR_NONE := kind ▸ by decide
    rw [ubiDataNodeDecompress, if_neg other, if_pos kind]
    exact lzoBuffer_spelled spells expanded room (lzoPayload_length dnode)

theorem fileBlock_length (content : List Byte) (block : Nat) :
    (fileBlock content block).length = min UBIFS_BLOCK_SIZE (content.length - block * UBIFS_BLOCK_SIZE) := by
  rw [fileBlock, List.length_take, List.length_drop]

theorem fileBlock_getD (content : List Byte) (offset : Nat) :
    (fileBlock content (offset / UBIFS_BLOCK_SIZE)).getD (offset % UBIFS_BLOCK_SIZE) 0#8 = content.getD offset 0#8 := by
  have inside : offset % UBIFS_BLOCK_SIZE < UBIFS_BLOCK_SIZE := Nat.mod_lt _ (by decide)
  have whole := Nat.div_add_mod' offset UBIFS_BLOCK_SIZE
  rw [fileBlock, List.getD_eq_getElem?_getD, List.getElem?_take_of_lt inside, List.getElem?_drop, whole,
    List.getD_eq_getElem?_getD]

end Blocks

section Files

variable {p : UbiVolume} {ino : BitVec 32} {content : List Byte}

theorem PackedFile.dataContent (packed : PackedFile p ino content) (opt : LzoOpt) {leaf : UbiLeafNode}
    (member : leaf ∈ dataLeafs p.root ino) :
    ImgEditor.dataContent (p.withLzo opt) leaf = some (fileBlock content leaf.hash) := by
  obtain ⟨dnode, read, kind, block⟩ := packed.stored leaf member
  have room : (fileBlock content leaf.hash).length ≤ UBIFS_BLOCK_SIZE := List.length_take_le _ _
  have same : ubiAllocReadCh (p.withLzo opt) leaf.selfLnum leaf.selfOffs = some dnode := read
  rw [ImgEditor.dataContent, same, Option.bind_eq_bind, Option.bind_some, if_pos kind, block.decompress room,
    Option.bind_some, if_pos block.size.symm]

theorem PackedFile.blockBytes (packed : PackedFile p ino content) (opt : LzoOpt) {leaf : UbiLeafNode}
    (member : leaf ∈ dataLeafs p.root ino) : ImgEditor.blockBytes (p.withLzo opt) leaf = fileBlock content leaf.hash := by
  rw [ImgEditor.blockBytes, packed.dataContent opt member, Option.getD_some]

theorem PackedFile.nodes (packed : PackedFile p ino content) (opt : LzoOpt) :
    DataNodes (p.withLzo opt) ino content.length := by
  refine ⟨packed.index, packed.distinct, ?_, ?_, ?_⟩
  · intro leaf member
    rw [packed.dataContent opt member]
    rfl
  · intro leaf member
    rw [packed.blockBytes opt member]
    exact List.length_take_le _ _
  · intro leaf member
    have near := packed.inside leaf member
    rw [packed.blockBytes opt member, fileBlock_length]
    omega

theorem PackedFile.near (packed : PackedFile p ino content) {leaf : UbiLeafNode} (member : leaf ∈ dataLeafs p.root ino) :
    leaf.hash < 2 ^ 20 := by
  have inside := packed.inside leaf member
  have small := packed.small
  rw [UBIFS_BLOCK_SIZE] at inside
  omega

theorem PackedFile.fits (packed : PackedFile p ino content) (opt : LzoOpt) :
    FileFits (p.withLzo opt) ino content.length := by
  refine ⟨Nat.le_trans packed.small (by decide), ?_, ?_, ?_⟩
  · intro leaf member top
    have near := packed.near member
    omega
  · intro leaf member far
    exact absurd far (Nat.not_le_of_lt (packed.near member))
  · intro leaf member far
    exact absurd far (Nat.not_le_of_lt (packed.near member))

theorem PackedFile.blockByte (packed : PackedFile p ino content) (opt : LzoOpt) (offset : Nat) :
    ImgEditor.blockByte (p.withLzo opt) (dataLeafs p.root ino) offset = content.getD offset 0#8 := by
  by_cases held : ∃ leaf ∈ dataLeafs p.root ino, leaf.hash = offset / UBIFS_BLOCK_SIZE
  · obtain ⟨leaf, member, here⟩ := held
    rw [blockByte_some packed.distinct member here, packed.blockBytes opt member, here, fileBlock_getD]
  · have missing : ∀ leaf ∈ dataLeafs p.root ino, leaf.hash ≠ offset / UBIFS_BLOCK_SIZE :=
      fun leaf member here => held ⟨leaf, member, here⟩
    rw [blockByte_none missing, packed.holes offset missing]

/-- A packed file of up to 4 GiB is unpacked to its content. -/
theorem ubiUnpackFile_packed (opt : LzoOpt) (p : UbiVolume) (ino : BitVec 32) (inode content : List Byte)
    (read : ubiAllocReadInode p ino = some inode) (size : leField inode 48 8 = content.length)
    (packed : PackedFile p ino content) :
    ∃ fuel fd, ubiUnpackFile (p.withLzo opt) fuel ino = some (fd, 0) ∧ fd.file.size = content.length ∧
      ∀ offset < content.length, fd.file.byte offset = content.getD offset 0#8 := by
  have read' : ubiAllocReadInode (p.withLzo opt) ino = some inode := read
  have right : FileRight (p.withLzo opt) ino content.length := by
    rw [← size]
    by_cases empty : leField inode 48 8 = 0
    · exact fileRight_empty read' empty
    · exact fileRight_of_fits (size ▸ packed.nodes opt) read' empty (size ▸ packed.fits opt)
  obtain ⟨fuel, fd, done, sized, bytes⟩ := right
  refine ⟨fuel, fd, done, sized, ?_⟩
  intro offset inside
  rw [bytes offset inside]
  exact packed.blockByte opt offset

def lettersPacked : List Byte := [18#8, 0x41#8, 64#8, 0#8, 17#8, 0#8, 0#8]

theorem lettersPacked_spells : LzoSpells [] .start lettersPacked [.literal 0x41#8, .back 1 3] := by
  have takes : LzoPlace.TakesCode .plain := trivial
  have mark : LzoSpells [] .plain [17#8, 0#8, 0#8] [] := .eof takes (show 0 < 1 by decide) (show 0 < 4 by decide)
  have code : LzoBack .afterFew 1 3 0 [64#8, 0#8] :=
    .short trivial (by decide) (by decide) (by decide) (by decide)
  have letter : LzoSpells [] (.owes 1) [0x41#8, 64#8, 0#8, 17#8, 0#8, 0#8] [.literal 0x41#8, .back 1 3] :=
    .few (by decide) (show [0x41#8].length = 1 from rfl) (.back code (by decide) (.none mark))
  exact .startFew (by decide) (by decide) letter

/-- A file of four letters in one compressed data node. -/
def lettersVolume : UbiVolume where
  root := .mk 0 (.ofLeafs [⟨2, 0, 7, 0⟩, oneLeaf 0])
  readLeb := fun lnum =>
    if lnum = 7 then some (ubifsNode 0 (List.replicate 24 0#8 ++ leBytes 8 4 ++ List.replicate 104 0#8) ++
      List.replicate 24 0xff#8)
    else if lnum = 8 then some (ubifsNode 1 (List.replicate 16 0#8 ++ leBytes 4 4 ++ leBytes 2 1 ++ leBytes 2 0 ++
      lettersPacked) ++ List.replicate 24 0xff#8)
    else none
  lzo1xDecompressSafe := fun _ _ => none

theorem lettersVolume_packed : PackedFile lettersVolume 2 (List.replicate 4 0x41#8) := by
  have read : dataLeafs lettersVolume.root 2 = [oneLeaf 0] ∧
      (ubiAllocReadCh lettersVolume 8 0).map (fun dnode =>
        (chNodeType dnode, leField dnode 40 4, leField dnode 44 2, lzoPayload dnode)) =
      some (1, 4, 1, lettersPacked) := by decide +kernel
  obtain ⟨data, node⟩ := read
  obtain ⟨dnode, node, fields⟩ := Option.map_eq_some_iff.mp node
  obtain ⟨kind, size, compr, payload⟩ := by simpa only [Prod.mk.injEq] using fields
  have sorted : KeySearch.Sorted UbiLeafNode.keyNat lettersVolume.root.leafs := by
    simp only [lettersVolume, KeySearch.Sorted, UbiBranch.leafs, BranchEntries.ofLeafs, BranchEntries.leafs]
    decide
  refine ⟨⟨⟨0, ?_⟩, ?_, ?_, sorted⟩, by decide, ?_, ?_, ?_, ?_⟩
  · simp [lettersVolume, UbiBranch.Uniform, BranchEntries.ofLeafs, BranchEntries.Uniform]
  · simp [lettersVolume, UbiBranch.NonEmpty, BranchEntries.ofLeafs, BranchEntries.NonEmpty, BranchEntries.isEmpty]
  · simp [lettersVolume, UbiBranch.Separated, BranchEntries.ofLeafs, BranchEntries.Separated]
  · rw [data]
    exact List.nodup_singleton _
  · rw [data, List.forall_mem_singleton]
    decide
  · rw [data, List.forall_mem_singleton]
    have spelled : LzoSpells [] .start (lzoPayload dnode) [.literal 0x41#8, .back 1 3] := by
      rw [payload]
      exact lettersPacked_spells
    exact ⟨dnode, node, kind, size, Or.inr ⟨compr, _, spelled, rfl⟩⟩
  · intro offset missing
    rw [data, List.forall_mem_singleton] at missing
    apply List.getD_eq_default
    rw [List.length_replicate]
    by_contra inside
    apply missing
    change 0 = _
    rw [UBIFS_BLOCK_SIZE]
    omega

theorem ubiUnpackFile_packed_letters :
    ∃ fuel fd, ubiUnpackFile (lettersVolume.withLzo .unaligned64) fuel 2 = some (fd, 0) ∧ fd.file.size = 4 ∧
      ∀ offset < 4, fd.file.byte offset = (List.replicate 4 0x41#8).getD offset 0#8 := by
  have read : (ubiAllocReadInode lettersVolume 2).map (leField · 48 8) = some 4 := by decide +kernel
  obtain ⟨inode, read, size⟩ := Option.map_eq_some_iff.mp read
  exact ubiUnpackFile_packed .unaligned64 lettersVolume 2 inode (List.replicate 4 0x41#8) read size lettersVolume_packed

end Files

end ImgEditor
